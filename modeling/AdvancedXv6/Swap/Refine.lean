import AdvancedXv6.Swap.Machine

/-! Each step of the kernel keeps the memory accounted for, and is a step of the flat machine. -/

namespace Xv6.Swap
open Function Effect Ownership

variable {im : Image} {k k₀ k' : Kernel} {H : Held} {lost : List Nat} {p i va : Nat} {op : Op} {r : Reply}
  {e : Op × Reply} {b : BitVec 8} {w : Word} {R : Space → Space → Prop}

/-! ### The flat state -/

theorem flat_space (hi : i < nProc) : k.flat.space i = k.space i := if_pos hi

theorem flat_congr (hs : ∀ j, j < nProc → k'.space j = k.space j) : k'.flat.space = k.flat.space := by
  funext j
  by_cases hj : j < nProc
  · rw [flat_space hj, flat_space hj, hs j hj]
  · exact (if_neg hj).trans (if_neg hj).symm

theorem flat_same (hs : SameSpaces k k') (hcur : k'.cur = k.cur) : k'.flat = k.flat := by
  rw [Kernel.flat, Flat.mk.injEq]
  exact ⟨flat_congr hs, hcur⟩

theorem flat_update {o : Option Space} (hi : i < nProc) (hother : ∀ j, j < nProc → j ≠ i → k'.space j = k.space j)
    (ho : k'.space i = o) : k'.flat.space = update k.flat.space i o := by
  funext j
  by_cases hji : j = i
  · rw [hji, update_self, flat_space hi, ho]
  · rw [update_of_ne hji]
    by_cases hj : j < nProc
    · rw [flat_space hj, flat_space hj, hother j hj hji]
    · exact (if_neg hj).trans (if_neg hj).symm

/-- No address space lacks a page below its size. -/
def Kernel.AllWhole (k : Kernel) : Prop := ∀ i m, k.flat.space i = some m → m.Whole

/-- What a step does besides keeping the memory accounted for. -/
structure Fine (k : Kernel) (e : Op × Reply) (k' : Kernel) : Prop where
  tight : ¬e.1.Empties k → (k.cur.isSome → k.Tight) → k'.cur.isSome → k'.Tight
  whole : ¬e.1.Empties k → k.AllWhole → k'.AllWhole
  flat : (e.1 = .fork → ∀ evs, k'.trail = evs ++ k.trail → ∀ d va, Timely evs d va) → Flat.Step k.flat e k'.flat

theorem fine_unseen (hs : SameSpaces k k') (hcur : k'.cur = k.cur) (ht : k.Tight → k'.Tight)
    (hu : Flat.Unseen op r) : Fine k (op, r) k' := by
  have hflat := flat_same hs hcur
  refine ⟨fun _ hk hc => ht (hk (hcur ▸ hc)), fun _ hk => ?_, fun _ => ?_⟩
  · rw [Kernel.AllWhole, hflat]
    exact hk
  · rw [hflat]
    exact .unseen hu

theorem whole_update {s s' : Flat} {o : Option Space} (h : ∀ i m, s.space i = some m → m.Whole)
    (hs : s'.space = update s.space p o) (ho : ∀ m, o = some m → m.Whole) :
    ∀ i m, s'.space i = some m → m.Whole := by
  intro i m him
  rw [hs] at him
  by_cases hip : i = p
  · rw [hip, update_self] at him
    exact ho m him
  · rw [update_of_ne hip] at him
    exact h i m him

/-- The address space of the running process changes. -/
theorem fine_alters (hp : k.cur = some p) (hlt : p < nProc) (hcur : k'.cur = some p) (ha : Alters k k' p R)
    (ht : ¬op.Empties k → k.Tight → k'.Tight) (hw : ¬op.Empties k → ∀ m m', k.space p = some m → R m m' → m.Whole → m'.Whole)
    (hR : ∀ m m', k.space p = some m → R m m' → Flat.Step k.flat (op, r) (k.flat.put p m')) : Fine k (op, r) k' := by
  obtain ⟨m, m', hm, hm', hr⟩ := ha.self
  have hspace := flat_update hlt ha.others hm'
  refine ⟨fun hno hk _ => ht hno (hk (by rw [hp]; rfl)), fun hno hk => ?_, fun _ => ?_⟩
  · refine whole_update hk hspace fun m₁ h₁ => ?_
    cases h₁
    exact hw hno m m' hm hr (hk p m ((flat_space hlt).trans hm))
  · have hflat : k'.flat = k.flat.put p m' := by
      rw [Kernel.flat, Flat.put, Flat.mk.injEq]
      exact ⟨hspace, hcur.trans hp.symm⟩
    rw [hflat]
    exact hR m m' hm hr

/-- The running process is gone. -/
theorem fine_leaves (hlt : p < nProc) (hcur : k'.cur = none) (hl : Leaves k k' p)
    (hstep : Flat.Step k.flat (op, r) (k.flat.drop p)) : Fine k (op, r) k' := by
  have hspace := flat_update hlt hl.others hl.self
  refine ⟨fun _ _ hc => ?_, fun _ hk => whole_update hk hspace (fun m hm => by cases hm), fun _ => ?_⟩
  · rw [hcur] at hc
    cases hc
  · have hflat : k'.flat = k.flat.drop p := by
      rw [Kernel.flat, Flat.drop, Flat.mk.injEq]
      exact ⟨hspace, hcur⟩
    rw [hflat]
    exact hstep

theorem fine_forks {n : Int} (hp : k.cur = some p) (hlt : p < nProc) (hcur : k'.cur = some p) (hf : Forks k k' p i)
    (ht : k.Tight → k'.Tight) (hn : n ≠ -1) : Fine k (.fork, .int n) k' := by
  obtain ⟨s, c, evs, hs, hc, hsz, hw, htrail, hcopy⟩ := hf.copy
  have hspace := flat_update hf.lt hf.others hc
  refine ⟨fun _ hk _ => ht (hk (by rw [hp]; rfl)), fun _ hk => ?_, fun hprompt => ?_⟩
  · refine whole_update hk hspace fun m hm => ?_
    cases hm
    exact hw
  · have hcs : c = s := by
      have hpage : c.page = s.page := by
        funext pg
        exact hcopy pg fun _ => hprompt rfl evs htrail _ _
      cases c
      cases s
      cases hsz
      cases hpage
      rfl
    have hflat : k'.flat = k.flat.put i s := by
      rw [Kernel.flat, Flat.put, Flat.mk.injEq, ← hcs]
      exact ⟨hspace, hcur.trans hp.symm⟩
    rw [hflat]
    exact .fork hp ((flat_space hlt).trans hs) ((flat_space hf.lt).trans hf.fresh) hn

/-! ### User accesses -/

section OnePage
variable {pg₀ : Nat} (h : Good im k lost) (hp : k.cur = some p)
  (ht : Tame (onePage (k.proc p).pgdir pg₀) k k' (leaving lost))
include h hp ht

/-- A change of a page below the end of the process leaves what is above the ends. -/
theorem ends_onePage (hpg₀ : pg₀ < pageCount (k.proc p).sz) : Ends k' where
  tails i hi hs pg hlo hpg := by
    rw [ht.calm.state] at hs
    rw [ht.calm.sz] at hlo
    have hd : k.Dir (leaving lost) (.proc i) (k.proc i).pgdir := ⟨hi, hs, by rintro ⟨⟩, rfl⟩
    rw [ht.calm.pgdir, ht.page _ pg ⟨_, hd⟩ hpg fun hx => ?_]
    · exact h.ends.tails i hi hs pg hlo hpg
    · have hip := h.wf.acc.dir_unique hd (hx.1 ▸ h.wf.sane.dir_cur hp)
      cases hip
      exact absurd (hx.2 ▸ hlo) (Nat.not_le.mpr hpg₀)
  kstacks i hi := by
    rw [ht.calm.state, ht.calm.kstack]
    exact h.ends.kstacks i hi

theorem space_onePage {m : Space} (hm : k.space p = some m) (hpg₀ : pg₀ < userPages) :
    k'.space p = some { m with page := update m.page pg₀ (k'.page (k.proc p).pgdir pg₀) } := by
  have hev := h.evictable_cur hp
  rw [space_of hev] at hm
  cases hm
  rw [space_of (by rw [ht.calm.state]; exact hev), ht.calm.sz, ht.calm.pgdir]
  congr 2
  funext pg
  by_cases hpg : pg = pg₀
  · rw [hpg, update_self, if_pos hpg₀]
  · rw [update_of_ne hpg]
    dsimp only
    by_cases hup : pg < userPages
    · rw [if_pos hup, if_pos hup, ht.page _ pg (h.live hp) hup fun hx => hpg hx.2]
    · rw [if_neg hup, if_neg hup]

end OnePage

section Access
variable (h : Good im k lost) (hp : k.cur = some p) (h32 : va < 2 ^ 32)
include h hp h32

/-- The page that the MMU finds is the page of the process. -/
theorem page_readable (hr : Readable k va w) : ∃ m, k.space p = some m ∧
    m.page (va / pgSize) = some ⟨k.contents (.frame (frameOf w)), permOf w⟩ := by
  refine ⟨_, space_of (h.evictable_cur hp), ?_⟩
  have hva := h.wf.user_va (h.wf.sane.live_cr3 hp) h32 hr.entry hr.user
  obtain ⟨-, -, hcr3⟩ := h.wf.sane.run p hp
  dsimp only
  rw [if_pos (userPages_of_va hva).2, ← hcr3, Kernel.page, hr.entry, Option.bind_some,
    names_present hr.present, Option.map_some]

theorem userLoad_good : wp (userLoad va) k (fun r k' => Good im k' lost ∧ k'.cur = k.cur ∧
    (k.Tight → k'.Tight) ∧ SameSpaces k k' ∧
    ∀ b, r = some b → ∃ m, k.space p = some m ∧ m.read va = some b) fun _ _ => False := by
  have hsh : k.cr3 ∉ (leaving lost).dirs := List.not_mem_nil
  refine wp_mono (userLoad_spec h.wf hp hsh h32) (fun r k' hpost => ?_) (fun _ _ he => he)
  rcases hpost with ⟨rfl, rfl, -⟩ | ⟨w, hr, rfl, hw, hq⟩
  · exact ⟨h, rfl, id, .refl _, by rintro _ ⟨⟩⟩
  · refine ⟨⟨hw, h.ends.tame hq.tame⟩, hq.calm.cur, hq.tame.tight (h.wf.sane.live_cr3 hp),
      hq.tame.sameSpaces h.wf.sane, fun b hb => ?_⟩
    cases hb
    obtain ⟨m, hm, hpage⟩ := page_readable h hp h32 hr
    have hu : User (permOf w) := (user_congr (permOf_permOf w)).mpr hr.user
    refine ⟨m, hm, ?_⟩
    rw [Space.read, hpage, Option.bind_some, if_pos hu]
    exact congrArg some (UserPage.byte_eq _ _ (Nat.mod_lt va (by decide)))

/-- A store changes one byte of the process's memory, if the page is there and may be written to. -/
theorem userStore_good : wp (userStore va b) k (fun r k' => Good im k' lost ∧ k'.cur = k.cur ∧
    (k.Tight → k'.Tight) ∧ (r = false ∧ SameSpaces k k' ∨
      r = true ∧ Alters k k' p fun m m' => m.Writes va ∧ m' = m.write va b)) fun _ _ => False := by
  have hsh : k.cr3 ∉ (leaving lost).dirs := List.not_mem_nil
  obtain ⟨hlt, -, hcr3⟩ := h.wf.sane.run p hp
  have hev := h.evictable_cur hp
  refine wp_mono (userStore_spec h.wf hp hsh h32) (fun r k' hpost => ?_) (fun _ _ he => he)
  rcases hpost with ⟨rfl, rfl, -⟩ | ⟨w, hr, hwr, rfl, hw, -, ht, hloose, hpage'⟩
  · exact ⟨h, rfl, id, .inl ⟨rfl, .refl _⟩⟩
  obtain ⟨m, hm, hpage⟩ := page_readable h hp h32 hr
  have hva := (userPages_of_va (h.wf.user_va (h.wf.sane.live_cr3 hp) h32 hr.entry hr.user)).2
  have hbelow : va / pgSize < pageCount (k.proc p).sz := by
    by_contra hge
    have hnone := h.empty hp (Nat.not_lt.mp hge) hva w (hcr3 ▸ hr.entry)
    rw [names_present hr.present] at hnone
    cases hnone
  have ht₁ : Tame (onePage (k.proc p).pgdir (va / pgSize)) k k' (leaving lost) := hcr3 ▸ ht
  refine ⟨⟨hw, ends_onePage h hp ht₁ hbelow⟩, ht.calm.cur, fun hk pg hpg hl => hk pg hpg (hloose pg hpg hl),
    .inr ⟨rfl, fun j hj hjp => ht.space_of_ne h.wf hlt hev (fun d pg hx => hx.1.trans hcr3) hj hjp,
      m, m.write va b, hm, ?_, ⟨_, hpage, ?_, ?_⟩, rfl⟩⟩
  · rw [space_onePage h hp ht₁ hm hva, ← hcr3, hpage', Space.write, hpage, Option.map_some]
    congr 3
    exact congrArg some (UserPage.setByte_mk _ _ (Nat.mod_lt va (by decide))).symm
  · exact (user_congr (permOf_permOf w)).mpr hr.user
  · exact (writable_permOf w).mpr hwr

end Access

/-! ### One step -/

theorem whole_write {m : Space} (h : m.Whole) : (m.write va b).Whole := by
  intro pg
  rw [Space.page_write]
  by_cases hpg : pg = va / pgSize
  · rw [if_pos hpg, Option.isSome_map]
    exact h pg
  · rw [if_neg hpg]
    exact h pg

theorem whole_resize {m : Space} (h : m.Whole) (z : Nat) : (m.resize z).Whole := by
  intro pg
  show (if pg < pageCount z then _ else none : Option UserPage).isSome ↔ pg < pageCount z
  by_cases hz : pg < pageCount z
  · rw [if_pos hz]
    refine iff_of_true ?_ hz
    by_cases hs : pg < pageCount m.sz
    · rw [if_pos hs]
      exact (h pg).mpr hs
    · rw [if_neg hs]
      rfl
  · rw [if_neg hz]
    exact iff_of_false Bool.false_ne_true hz

/-- After a step that returns `r`, if no `fork` has met a page in the swap area. -/
def Op.Post (im : Image) (k : Kernel) (op : Op) (r : Reply) (k' : Kernel) : Prop :=
  Shared k'.trail ∨ (∃ lost', Sound im k' lost') ∧ Fine k (op, r) k'

section Steps
variable {α : Type} {m : Kern α} {f : α → Reply} {E : Panic → Kernel → Prop}

/-- A step that no process sees, and that fetches no page. -/
theorem unseen_spec (h : Sound im k lost) (hl : Logs Plain m) (hu : ∀ a, Flat.Unseen op (f a))
    (hm : wp m k (fun _ k' => Good im k' lost ∧ k'.cur = k.cur ∧ (k.Tight → k'.Tight) ∧ SameSpaces k k') E) :
    wp (f <$> m) k (op.Post im k) E := by
  rw [wp_map]
  refine wp_mono (wp_and hm (hl k)) (fun a k' hpost => ?_) (fun _ _ he => he.1)
  obtain ⟨⟨hg, hcur, ht, hs⟩, hlong⟩ := hpost
  exact .inr ⟨⟨lost, h.longer hg hlong.noFetch⟩, fine_unseen hs hcur ht (hu a)⟩

variable (h : Sound im k lost) (hp : k.cur = some p)
include h hp

theorem load_step (h32 : va < 2 ^ 32) : wp ((Op.load va).run im) k ((Op.load va).Post im k) E := by
  rw [Op.run, wp_map]
  refine wp_mono (wp_and (userLoad_good h.good hp h32) (userLoad_logs va k)) (fun r k' hpost => ?_)
    (fun _ _ he => he.1.elim)
  obtain ⟨⟨hg, hcur, ht, hs, hr⟩, hlong⟩ := hpost
  refine .inr ⟨⟨lost, h.longer hg hlong.noFetch⟩, ?_⟩
  cases r with
  | none => exact fine_unseen hs hcur ht trivial
  | some b =>
    obtain ⟨m, hm, hb⟩ := hr b rfl
    have hflat := flat_same hs hcur
    refine ⟨fun _ hk hc => ht (hk (hcur ▸ hc)), fun _ hk => ?_, fun _ => ?_⟩
    · rw [Kernel.AllWhole, hflat]
      exact hk
    · rw [hflat]
      exact .load hp ((flat_space (h.good.wf.sane.run p hp).1).trans hm) hb

theorem store_step (h32 : va < 2 ^ 32) : wp ((Op.store va b).run im) k ((Op.store va b).Post im k) E := by
  rw [Op.run, wp_map]
  refine wp_mono (wp_and (userStore_good h.good hp h32) (userStore_logs va b k)) (fun r k' hpost => ?_)
    (fun _ _ he => he.1.elim)
  obtain ⟨⟨hg, hcur, ht, hr⟩, hlong⟩ := hpost
  have hlt := (h.good.wf.sane.run p hp).1
  refine .inr ⟨⟨lost, h.longer hg hlong.noFetch⟩, ?_⟩
  rcases hr with ⟨rfl, hs⟩ | ⟨rfl, ha⟩
  · exact fine_unseen hs hcur ht trivial
  · refine fine_alters hp hlt (hcur.trans hp) ha (fun _ => ht) (fun _ m m' _ hr hw => ?_) fun m m' hm hr => ?_
    · obtain ⟨-, rfl⟩ := hr
      exact whole_write hw
    · obtain ⟨hw, rfl⟩ := hr
      exact .store hp ((flat_space hlt).trans hm) hw

theorem access_step {n : Nat} (hva : va + n ≤ kernBase) : wp ((Op.access va n).run im) k
    ((Op.access va n).Post im k) Stuck := by
  rw [Op.run, wp_map]
  refine wp_mono (touchRange_spec h.good.wf hp hva) (fun _ k' hpost => ?_) (fun _ _ he => he)
  obtain ⟨ns, ha⟩ := hpost
  exact .inr ⟨⟨_, h.after ha⟩, fine_unseen (ha.tame.sameSpaces h.good.wf.sane) ha.tame.calm.cur
    (ha.tame.tight (h.good.wf.sane.live_cr3 hp)) trivial⟩

theorem pageFault_step {user : Bool} (h32 : va < 2 ^ 32) : wp ((Op.pageFault va user).run im) k
    ((Op.pageFault va user).Post im k) (fun e _ => Exhausted e ∨ e = .initExiting) := by
  rw [Op.run, wp_map]
  refine wp_mono (trapPgflt_spec (supply_running im p) h hp h32) (fun r k' hpost => ?_) (fun _ _ he => he)
  obtain ⟨lost', hs', ht, hr⟩ := hpost
  refine .inr ⟨⟨lost', hs'⟩, ?_⟩
  rcases hr with ⟨rfl, hcur, hs⟩ | ⟨rfl, hcur, hl⟩
  · exact fine_unseen hs (hcur.trans hp.symm) ht trivial
  · exact fine_leaves (h.good.wf.sane.run p hp).1 hcur hl (.killed hp)

theorem sbrk_step {n : Int} : wp ((Op.sbrk n).run im) k ((Op.sbrk n).Post im k) (fun e _ => Exhausted e) := by
  rw [Op.run, wp_map]
  refine wp_mono (wp_and (growproc_spec (n := n) (supply_running im p) h.good hp) (growproc_logs im n k))
    (fun r k' hpost => ?_) (fun _ _ he => he.1)
  obtain ⟨⟨hg, hcur, ha, ht⟩, hlong⟩ := hpost
  have hlt := (h.good.wf.sane.run p hp).1
  refine .inr ⟨⟨lost, h.longer hg hlong.noFetch⟩, fine_alters hp hlt hcur ha
    (fun hno hk => ht hk fun hem => hno ⟨p, hp, hem⟩) (fun hno m m' hm hr hw => ?_)
    fun m m' hm hr => .sbrk hp ((flat_space hlt).trans hm) hr⟩
  rcases hr with ⟨-, rfl⟩ | ⟨-, rfl⟩ | ⟨-, hn, hz, hpos, -⟩
  · exact whole_resize hw _
  · exact hw
  · rw [space_of (h.good.evictable_cur hp)] at hm
    cases hm
    exact absurd ⟨p, hp, hn, hz, hpos⟩ hno

theorem fork_step : wp (Op.fork.run im) k (Op.fork.Post im k) (fun e k' => Shared k'.trail ∨ Op.fork.Stops k e) := by
  rw [Op.run, wp_map]
  refine wp_mono (wp_and (fork_spec (supply_running im p) h.good hp) (fork_logs im k)) (fun r k' hpost => ?_)
    (fun _ _ he => he.1.imp_right fun he => he.imp_right fun hs => ⟨hs.1, p, ?_⟩)
  rotate_left
  · obtain ⟨-, s, hs, hw⟩ := hs
    exact ⟨s, hp, hs, hw⟩
  obtain ⟨hr, hlong⟩ := hpost
  refine hr.imp_right fun hr => ?_
  obtain ⟨hg, hcur, ht, hr⟩ := hr
  refine ⟨⟨lost, h.longer hg hlong⟩, ?_⟩
  rcases hr with ⟨rfl, rfl⟩ | ⟨hn, i, hf⟩
  · exact fine_unseen (.refl _) rfl id rfl
  · exact fine_forks hp (h.good.wf.sane.run p hp).1 hcur hf ht hn

theorem exec_step {phs : Option (List Segment)} {path : UserString} {argv : List UserString} :
    wp ((Op.exec phs path argv).run im) k ((Op.exec phs path argv).Post im k) Fails := by
  rw [Op.run, wp_map]
  refine wp_mono (exec_spec h hp) (fun r k' hpost => ?_) (fun _ _ he => he)
  obtain ⟨lost', hs', hcur, ht, hr⟩ := hpost
  have hlt := (h.good.wf.sane.run p hp).1
  refine .inr ⟨⟨lost', hs'⟩, ?_⟩
  rcases hr with ⟨rfl, hs⟩ | ⟨rfl, ha⟩
  · exact fine_unseen hs (hcur.trans hp.symm) ht rfl
  · exact fine_alters hp hlt hcur ha (fun _ => ht) (fun _ _ _ _ hw _ => hw.1)
      fun m m' hm hw => .exec hp ((flat_space hlt).trans hm) hw.1 hw.2

theorem exit_step : wp (Op.exit.run im) k (Op.exit.Post im k) (fun e _ => e = .initExiting) := by
  rw [Op.run, wp_map]
  refine wp_mono (wp_and (exit_spec h.good hp) (exit_logs k)) (fun _ k' hpost => ?_) (fun _ _ he => he.1)
  obtain ⟨⟨hg, hcur, -, hl⟩, hlong⟩ := hpost
  exact .inr ⟨⟨lost, h.longer hg hlong.noFetch⟩, fine_leaves (h.good.wf.sane.run p hp).1 hcur hl (.exit hp)⟩

theorem sched_step {s : ProcState} (hs : Evictable s) : wp ((Op.sched s).run im) k ((Op.sched s).Post im k) E := by
  rw [Op.run, wp_map]
  refine wp_mono (wp_and (sched_spec h.good hp hs) (sched_logs s k)) (fun _ k' hpost => ?_) (fun _ _ he => he.1)
  obtain ⟨⟨hg, hcur, -, hsame⟩, hlong⟩ := hpost
  have hspace := flat_congr hsame
  refine .inr ⟨⟨lost, h.longer hg hlong.noFetch⟩, fun _ _ hc => ?_, fun _ hk => ?_, fun _ => ?_⟩
  · rw [hcur] at hc
    cases hc
  · rw [Kernel.AllWhole, hspace]
    exact hk
  · have hflat : k'.flat = { k.flat with cur := none } := by
      rw [Kernel.flat, Flat.mk.injEq]
      exact ⟨hspace, hcur⟩
    rw [hflat]
    exact .sched

omit hp in
theorem dispatch_step {q : Nat} (hcur : k.cur = none) (hq : q < nProc) (hs : (k.proc q).state = .runnable) :
    wp ((Op.dispatch q).run im) k ((Op.dispatch q).Post im k) E := by
  rw [Op.run, wp_map]
  refine wp_mono (wp_and (dispatch_spec h.good hq hs) (dispatch_logs q k)) (fun _ k' hpost => ?_)
    (fun _ _ he => he.1)
  obtain ⟨⟨hg, hcur', ht, hsame⟩, hlong⟩ := hpost
  have hspace := flat_congr hsame
  refine .inr ⟨⟨lost, h.longer hg hlong.noFetch⟩, fun _ _ _ => ht, fun _ hk => ?_, fun _ => ?_⟩
  · rw [Kernel.AllWhole, hspace]
    exact hk
  · have hflat : k'.flat = { k.flat with cur := some q } := by
      rw [Kernel.flat, Flat.mk.injEq]
      exact ⟨hspace, hcur'⟩
    rw [hflat]
    exact .dispatch hcur ((flat_space hq).trans (space_of (hs ▸ .inl rfl)))

end Steps

/-- Each operation keeps the memory accounted for and is a step of the flat machine, up to the first `fork`
that meets a page in the swap area; and it can meet no other panic than its own. -/
theorem Op.spec (h : Sound im k lost) (hen : op.Enabled k) :
    wp (op.run im) k (op.Post im k) (fun e k' => Shared k'.trail ∨ op.Stops k e) := by
  have hquiet {α : Type} {m : Kern α} {f : α → Reply} {p : Nat} (hp : k.cur = some p) (hl : Logs Plain m)
      (hu : ∀ a, Flat.Unseen op (f a)) (hm : wp m k (fun _ k' => Good im k' lost ∧ k'.cur = some p ∧
        (k.Tight → k'.Tight) ∧ SameSpaces k k') (fun e _ => op.Stops k e)) :
      wp (f <$> m) k (op.Post im k) (fun e k' => Shared k'.trail ∨ op.Stops k e) :=
    unseen_spec h hl hu (wp_mono hm (fun _ _ hr => hp ▸ hr) fun _ _ => .inr)
  have hstep {α : Type} {m : Kern α} {Q : α → Kernel → Prop} {E : Panic → Kernel → Prop} (hm : wp m k Q E)
      (hE : ∀ e k', E e k' → op.Stops k e) : wp m k Q (fun e k' => Shared k'.trail ∨ op.Stops k e) :=
    wp_mono hm (fun _ _ hr => hr) fun e k' he => .inr (hE e k' he)
  cases op with
  | load va =>
    obtain ⟨p, hp⟩ := Option.isSome_iff_exists.mp hen.1
    exact load_step h hp hen.2
  | store va b =>
    obtain ⟨p, hp⟩ := Option.isSome_iff_exists.mp hen.1
    exact store_step h hp hen.2
  | access va n =>
    obtain ⟨p, hp⟩ := Option.isSome_iff_exists.mp hen.1
    exact hstep (access_step h hp hen.2) fun _ _ he => he
  | pageFault va user =>
    obtain ⟨p, hp⟩ := Option.isSome_iff_exists.mp hen.1
    exact hstep (pageFault_step h hp hen.2) fun _ _ he => he
  | sbrk n =>
    obtain ⟨p, hp⟩ := Option.isSome_iff_exists.mp hen
    exact hstep (sbrk_step h hp) fun _ _ he => he
  | fork =>
    obtain ⟨p, hp⟩ := Option.isSome_iff_exists.mp hen
    exact fork_step h hp
  | exec phs path argv =>
    obtain ⟨p, hp⟩ := Option.isSome_iff_exists.mp hen
    exact hstep (exec_step h hp) fun _ _ he => he
  | exit =>
    obtain ⟨p, hp⟩ := Option.isSome_iff_exists.mp hen
    exact hstep (exit_step h hp) fun _ _ he => he
  | wait =>
    obtain ⟨p, hp⟩ := Option.isSome_iff_exists.mp hen
    exact hquiet hp (wait_logs im) (fun _ => trivial) (wait_spec h.good hp)
  | pipe =>
    obtain ⟨p, hp⟩ := Option.isSome_iff_exists.mp hen
    exact hquiet hp (pipealloc_logs im) (fun _ => trivial) (pipealloc_spec (supply_running im p) h.good hp)
  | close f =>
    obtain ⟨p, hp⟩ := Option.isSome_iff_exists.mp hen.1
    exact hquiet hp (pipeclose_logs im f) (fun _ => trivial) (pipeclose_spec h.good hp hen.2)
  | kill pid => exact unseen_spec h (kill_logs pid) (fun _ => trivial) (kill_spec h.good)
  | wakeup chan => exact unseen_spec h (wakeup_logs chan) (fun _ => trivial) (wakeup_spec h.good)
  | sched s =>
    obtain ⟨p, hp⟩ := Option.isSome_iff_exists.mp hen.1
    refine sched_step h hp ?_
    rcases hen.2 with rfl | rfl
    · exact .inl rfl
    · exact .inr (.inr rfl)
  | dispatch q => exact dispatch_step h hen.1 hen.2.1 hen.2.2
  | evict =>
    obtain ⟨p, hp⟩ := Option.isSome_iff_exists.mp hen
    exact hquiet hp (swapOutOnePage_logs im) (fun _ => trivial) (swapOutOnePage_good h.good hp)

end Xv6.Swap
