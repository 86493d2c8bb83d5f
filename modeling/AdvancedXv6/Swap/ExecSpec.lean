import AdvancedXv6.Swap.Copyout

/-! `exec`: the new address space is built in a directory that no process has yet, and changes
places with the old one. -/

namespace Xv6.Swap
open Function Effect Ownership

variable {im : Image} {k k₀ k₁ k₂ k₃ k' : Kernel} {H : Held} {d d' i n p va pg sz sz' : Nat} {e w : Word}
  {q : PtePtr} {x y : Holder} {E : Panic → Kernel → Prop} {lost ns : List Nat}
  {X : Nat → Nat → Prop}

theorem loadLoop_spec {addr : Nat} {read : Nat → Option (Page → Page)} (is : List Nat)
    (h : Wf im k H) (hd : k.Live H d)
    (his : ∀ i ∈ is, addr + i * pgSize < kernBase ∧ k.In d ((addr + i * pgSize) / pgSize)) :
    wp (loadLoop d addr read is) k (fun _ k' => Filled im k k' H d) E := by
  induction is generalizing k with
  | nil =>
    rw [loadLoop, wp_pure]
    exact .refl h
  | cons i is ih =>
    obtain ⟨hlt, e, he, hp⟩ := his i List.mem_cons_self
    obtain ⟨h32, hpg⟩ := userPages_of_va hlt
    rw [loadLoop, wp_bind, wp_get]
    rw [Kernel.entry_eq_walk h32] at he
    obtain ⟨q, hq, hload⟩ := Option.map_eq_some_iff.mp he
    subst hload
    simp only [hq]
    cases read i with
    | none => exact (wp_pure _).mpr (.refl h)
    | some w =>
      dsimp only
      rw [wp_bind, wp_modify]
      have hf : Filled im k _ H d := .fill (P := w (k.mem (frameOf (k.load q)))) h hd hpg
        (Kernel.entry_of_walk h32 hq) hp
      refine wp_mono (ih hf.wf (hf.tame.calm.live.mpr hd) fun j hj => ?_)
        (fun _ _ hf' => hf.trans hf') (fun _ _ he => he)
      obtain ⟨hltj, hin⟩ := his j (List.mem_cons_of_mem i hj)
      refine ⟨hltj, ?_⟩
      rw [Kernel.In, hf.entry _ (lt_tablePages (userPages_of_va hltj).2)]
      exact hin

/-! ### An address space in the making -/

/-- The pages below `sz` are in memory, and there are no others. -/
structure Built (k : Kernel) (d sz : Nat) : Prop where
  le : sz ≤ kernBase
  full : ∀ pg, pg < pageCount sz → k.In d pg
  rest : ∀ pg, pageCount sz ≤ pg → pg < userPages → k.Empty d pg

theorem Built.of_entry (h : Built k d sz) (he : ∀ pg, pg < userPages → k'.entry d pg = k.entry d pg) :
    Built k' d sz where
  le := h.le
  full pg hpg := by
    rw [Kernel.In, he pg (Nat.lt_of_lt_of_le hpg (pageCount_le h.le))]
    exact h.full pg hpg
  rest pg hlo hpg := by
    rw [Kernel.Empty, he pg hpg]
    exact h.rest pg hlo hpg

theorem empty_of_appears (ha : Appears (k.entry d pg) (k'.entry d pg)) (h : k.Empty d pg) :
    k'.Empty d pg := empty_of_grows ha.grows h

theorem in_of_appears (ha : Appears (k.entry d pg) (k'.entry d pg)) (h : k.In d pg) :
    k'.In d pg := by
  obtain ⟨e, he, hp⟩ := h
  rcases ha with hs | ⟨hn, _⟩
  · exact ⟨e, hs.trans he, hp⟩
  · rw [hn] at he
    cases he

/-- Operations that leave the directory out. -/
theorem Built.tame (h : Built k d sz) (ht : Tame X k k' H) (hd : d ∈ H.dirs)
    (hX : ∀ pg, ¬X d pg) : Built k' d sz where
  le := h.le
  full pg hpg := in_of_appears (ht.built d pg hd
    (lt_tablePages (Nat.lt_of_lt_of_le hpg (pageCount_le h.le))) (hX pg)) (h.full pg hpg)
  rest pg hlo hpg := empty_of_appears (ht.built d pg hd (lt_tablePages hpg) (hX pg)) (h.rest pg hlo hpg)

/-- `exec` has built `sz` bytes of the new address space in the directory `d`. -/
structure Making (im : Image) (k k' : Kernel) (H : Held) (d sz : Nat) (ns : List Nat) : Prop where
  after : After im (ofDir d) k k' (H.build d) ns
  built : Built k' d sz

namespace Making

theorem cur (h : Making im k k' H d sz ns) (hp : k.cur = some p) : k'.cur = some p :=
  h.after.tame.calm.cur.trans hp

theorem live (_ : Making im k k' H d sz ns) : k'.Live ((H.losing ns).build d) d :=
  ⟨.held, List.mem_cons_self⟩

theorem wf (h : Making im k k' H d sz ns) : Wf im k' ((H.losing ns).build d) := h.after.wf

/-- A step that fetches no page. -/
theorem next (h : Making im k k₁ H d sz ns) (hw : Wf im k₂ ((H.losing ns).build d))
    (ht : Tame (ofDir d) k₁ k₂ ((H.losing ns).build d)) (hf : fetches k₂.trail = fetches k₁.trail)
    (hb : Built k₂ d sz') : Making im k k₂ H d sz' ns where
  after := ⟨hw, h.after.tame.trans (Tame.losing ns ht), hf.trans h.after.fetches, h.after.nodup⟩
  built := hb

theorem start (h : Wf im k₁ (H.build d)) (hq : Quiet noPage k k₁ H) (hl : Longer Plain k k₁)
    (hno : ∀ i, i < userPages / 1024 → ¬Present (k₁.mem d i)) : Making im k k₁ H d 0 [] where
  after := .longer h hq.tame.ofDir hl
  built :=
    { le := Nat.zero_le _
      full := fun pg hpg => by
        rw [pageCount_zero] at hpg
        cases hpg
      rest := fun pg _ hpg e he => by
        rw [Kernel.entry, if_neg (hno _ ?_)] at he
        · cases he
        · rw [userPages] at hpg ⊢
          omega }

theorem fill (h : Making im k k₁ H d sz ns) (hf : Filled im k₁ k₂ ((H.losing ns).build d) d) :
    Making im k k₂ H d sz ns :=
  h.next hf.wf hf.tame (by rw [hf.trail]) (h.built.of_entry fun pg hpg => hf.entry pg (lt_tablePages hpg))

theorem roundUp (h : Making im k k₁ H d sz ns) : Making im k k₁ H d (pgRoundUp sz) ns where
  after := h.after
  built := by
    have hcount : pageCount (pgRoundUp sz) = pageCount sz := by
      rw [pgRoundUp_eq h.built.le, pageCount, Nat.add_sub_assoc (by decide), Nat.add_comm,
        Nat.add_mul_div_right _ _ (by decide), show (pgSize - 1) / pgSize = 0 by decide, Nat.zero_add]
    have hle := pageCount_le h.built.le
    refine ⟨?_, hcount ▸ h.built.full, hcount ▸ h.built.rest⟩
    rw [pgRoundUp_eq h.built.le, pgSize, kernBase]
    omega

theorem alloc {newsz : Nat} (h : Making im k k₁ H d sz ns) (hp : k.cur = some p) :
    wp (allocuvm im d sz newsz) k₁ (fun r k₂ => ∃ sz', Making im k k₂ H d sz' ns ∧
      (r ≠ 0 → sz' = r ∧ newsz ≤ r ∧ newsz < kernBase)) Fails := by
  have hdirs : d ∈ ((H.losing ns).build d).dirs := List.mem_cons_self
  refine wp_mono (wp_and (allocuvm_spec (n := 0) (supply_fails im p).source h.wf h.live (h.cur hp) h.built.le
    (h.cur hp) (fun _ _ => h.wf.beyond_built hdirs) h.built.rest) (allocuvm_logs im d sz newsz k₁))
    (fun r k₂ hpost => ?_) (fun _ _ he => he.1)
  obtain ⟨⟨-, rfl, rfl⟩ | ⟨hfit, hlt, rfl, rfl⟩ | ⟨hfit, hle, rfl, h₂, -, hq₂, hpages⟩, hl₂⟩ := hpost
  · exact ⟨sz, h, fun hne => absurd rfl hne⟩
  · exact ⟨r, h, fun _ => ⟨rfl, Nat.le_of_lt hlt, hfit⟩⟩
  · refine ⟨r, h.next h₂ (hq₂.tame.forget fun _ _ _ hx => hx.1) hl₂.noFetch.fetches ?_, fun _ => ⟨rfl, Nat.le_refl r, hfit⟩⟩
    refine ⟨Nat.le_of_lt hfit, fun pg hpg => ?_, fun pg hlo hpg => ?_⟩
    · by_cases hnew : pageCount sz ≤ pg
      · exact (hpages pg hnew hpg).2 hdirs
      · exact hq₂.in_built hdirs (lt_tablePages (Nat.lt_of_lt_of_le hpg (pageCount_le (Nat.le_of_lt hfit))))
          (fun hx => hnew hx.2.1) (h.built.full pg (Nat.not_le.mp hnew))
    · exact hq₂.empty h.live (lt_tablePages hpg) (fun hx => absurd hx.2.2 (Nat.not_lt.mpr hlo))
        (h.built.rest pg (Nat.le_trans (pageCount_mono hle) hlo) hpg)

theorem in_of_lt (h : Making im k k₁ H d sz ns) (hva : va < sz) : k₁.In d (va / pgSize) :=
  h.built.full _ (lt_pageCount.mpr (Nat.lt_of_le_of_lt (Nat.div_mul_le_self va pgSize) hva))

theorem load {addr filesz : Nat} {read : Nat → Option (Page → Page)} (h : Making im k k₁ H d sz ns)
    (haln : addr % pgSize = 0) (hfit : addr + filesz ≤ sz) :
    wp (loaduvm d addr filesz read) k₁ (fun _ k₂ => Making im k k₂ H d sz ns) E := by
  rw [loaduvm, if_neg (not_not_intro haln)]
  refine wp_mono (loadLoop_spec _ h.wf h.live fun i hi => ?_) (fun _ _ hf => h.fill hf) (fun _ _ he => he)
  have hlt := lt_pageCount.mp (List.mem_range.mp hi)
  have hin : addr + i * pgSize < sz := by omega
  exact ⟨Nat.lt_of_lt_of_le hin h.built.le, h.in_of_lt hin⟩

/-- `clearpteu` of a page below the size. -/
theorem clear (h : Making im k k₁ H d sz ns) (hva : va < sz) :
    wp (clearpteu d va) k₁ (fun _ k₂ => Making im k k₂ H d sz ns) E := by
  obtain ⟨h32, hpg⟩ := userPages_of_va (Nat.lt_of_lt_of_le hva h.built.le)
  obtain ⟨e, he, hp⟩ := h.in_of_lt hva
  rw [Kernel.entry_eq_walk h32] at he
  obtain ⟨q, hq, rfl⟩ := Option.map_eq_some_iff.mp he
  have hp' : Present (k₁.load q &&& ~~~pteU) := by
    rw [Present, and_clear _ (by decide)]
    exact hp
  have hnames : names (k₁.load q &&& ~~~pteU) = names (k₁.load q) := by
    rw [names_present hp, names_present hp', frameOf_clear _ (by decide)]
  have hlive := h.live
  rw [clearpteu, wp_bind, wp_get]
  simp only [hq, wp_modify]
  refine h.next ⟨h.wf.acc.setFlags hlive hq h32 fun _ => hnames, h.wf.sane.setPte h.wf.acc hlive hq h32
    (fun n hn => ?_) (.inl hpg)⟩ (Quiet.store h.wf.acc hlive hq h32 (List.not_mem_nil : Event.reload ∉ [])
    (.inl rfl)).tame rfl ⟨h.built.le, fun pg hlt => ?_, fun pg hlo hlt => ?_⟩
  · rw [hnames, names_present hp] at hn
    cases hn
  · have hup := Nat.lt_of_lt_of_le hlt (pageCount_le h.built.le)
    rw [Kernel.In, entry_setPte h.wf.acc hlive hq h32 hlive (userPages_div hup)]
    by_cases hx : d = d ∧ pg = va / pgSize
    · rw [if_pos hx]
      exact ⟨_, rfl, hp'⟩
    · rw [if_neg hx]
      exact h.built.full pg hlt
  · have hx : ¬(d = d ∧ pg = va / pgSize) := by
      rintro ⟨-, rfl⟩
      exact absurd (Nat.lt_of_le_of_lt (Nat.div_mul_le_self va pgSize) hva)
        (Nat.not_lt.mpr (Nat.le_of_not_lt fun hlt => absurd (lt_pageCount.mpr hlt) (Nat.not_lt.mpr hlo)))
    intro e he'
    rw [entry_setPte h.wf.acc hlive hq h32 hlive (userPages_div hlt), if_neg hx] at he'
    exact h.built.rest pg hlo hlt e he'

theorem copyout {buf : List (BitVec 8)} (h : Making im k k₁ H d sz ns) (hva : va < 2 ^ 32) :
    wp (Swap.copyout d va buf) k₁ (fun r k₂ => Making im k k₂ H d sz ns ∧ (r = true → CopiedOut k₁ k₂ d va buf)) Fails :=
  wp_mono (copyoutLoop_spec buf.length h.wf h.live hva (Nat.le_refl _)) (fun _ _ hf => hf.imp_left h.fill)
    fun _ _ he => he

/-- The kernel reads the old address space; pages of it may come back to memory. -/
theorem touch (h : Making im k k₁ H d sz ns) (hp : k.cur = some p) (hva : va + n ≤ kernBase) :
    wp (touchRange im va n) k₁ (fun _ k₂ => ∃ ns', Making im k k₂ H d sz ns' ∧ k₂.image d = k₁.image d) Fails := by
  refine wp_mono (touchRange_spec h.wf (h.cur hp) hva) (fun _ k₂ hpost => ?_) (fun _ _ he => he.imp_right .inl)
  obtain ⟨ns', ha⟩ := hpost
  exact ⟨ns' ++ ns, ⟨h.after.trans ⟨ha.wf, ha.tame.weaken, ha.fetches, ha.nodup⟩,
    h.built.tame ha.tame List.mem_cons_self fun _ => id⟩, ha.tame.image h.live⟩

end Making

theorem loadSegments_spec (phs : List Segment) (h : Making im k k₁ H d sz ns) (hp : k.cur = some p) :
    wp (loadSegments im d phs sz) k₁ (fun r k₂ => ∃ sz', Making im k k₂ H d sz' ns ∧ ∀ s ∈ r, s = sz') Fails := by
  induction phs generalizing k₁ sz with
  | nil =>
    rw [loadSegments, wp_pure]
    refine ⟨sz, h, fun s hs => ?_⟩
    cases hs
    rfl
  | cons ph phs ih =>
    have hbad {k₂ : Kernel} {z : Nat} (h₂ : Making im k k₂ H d z ns) :
        wp (pure none : Kern (Option Nat)) k₂
          (fun r k₂ => ∃ sz', Making im k k₂ H d sz' ns ∧ ∀ s ∈ r, s = sz') Fails :=
      (wp_pure _).mpr ⟨z, h₂, fun _ hs => absurd hs (Option.not_mem_none _)⟩
    rw [loadSegments]
    by_cases hfile : ph.memsz < ph.filesz
    · rw [if_pos hfile]
      exact hbad h
    by_cases hwrap : (ph.vaddr + ph.memsz) % 2 ^ 32 < ph.vaddr
    · rw [if_neg hfile, if_pos hwrap]
      exact hbad h
    -- the sum does not wrap around
    have hend : (ph.vaddr + ph.memsz) % 2 ^ 32 = ph.vaddr + ph.memsz := by
      have := ph.memsz_lt
      omega
    rw [if_neg hfile, if_neg hwrap, wp_bind, hend]
    refine wp_mono (h.alloc hp) (fun r k₂ hpost => ?_) (fun _ _ he => he)
    obtain ⟨sz', h₂, hr⟩ := hpost
    by_cases hz : r = 0
    · rw [if_pos hz]
      exact hbad h₂
    obtain ⟨rfl, hle, -⟩ := hr hz
    rw [if_neg hz]
    by_cases haln : ph.vaddr % pgSize = 0
    · rw [if_neg (not_not_intro haln), wp_bind]
      refine wp_mono (h₂.load haln (by omega)) (fun b k₃ h₃ => ?_) (fun _ _ he => he)
      cases b with
      | true => exact ih h₃
      | false => exact hbad h₃
    · rw [if_pos haln]
      exact hbad h₂

/-- The strings stand where the pointers say, and what was above them is still there. -/
structure Pushed (k k' : Kernel) (d sp : Nat) (ss : List UserString) (sp' : Nat) (qs : List Nat) : Prop where
  le : sp' ≤ sp
  strings : (k'.image d).Strings sp' ss qs
  above : ∀ va, sp ≤ va → (k'.image d).read va = (k.image d).read va

/-- A string that was copied out stands below the ones pushed before: the stack pointer has not wrapped around. -/
theorem push_le {sp len : Nat} (hsp : sp ≤ kernBase) (hlen : len ≤ kernBase)
    (hbelow : (sp + 2 ^ 32 - len) % 2 ^ 32 / 4 * 4 + len ≤ kernBase) :
    (sp + 2 ^ 32 - len) % 2 ^ 32 / 4 * 4 + len ≤ sp := by
  rw [kernBase] at *
  omega

theorem pushArgs_spec (ss : List UserString) {sp : Nat} {ustack : List Nat} (h : Making im k k₁ H d sz ns)
    (hp : k.cur = some p) (hsp : sp ≤ kernBase) (hmax : ustack.length ≤ 32) :
    wp (pushArgs im d ss sp ustack) k₁ (fun r k₂ => ∃ ns', Making im k k₂ H d sz ns' ∧ ∀ q, r = some q →
      q.2.length ≤ 32 ∧ ∃ qs, q.2 = ustack ++ qs ∧ Pushed k₁ k₂ d sp ss q.1 qs) Fails := by
  induction ss generalizing k₁ ns sp ustack with
  | nil =>
    rw [pushArgs, wp_pure]
    refine ⟨ns, h, fun q hq => ?_⟩
    cases hq
    exact ⟨hmax, [], (List.append_nil _).symm, Nat.le_refl sp, .nil, fun _ _ => rfl⟩
  | cons s ss ih =>
    rw [pushArgs]
    by_cases hmax' : 32 ≤ ustack.length
    · rw [if_pos hmax', wp_pure]
      exact ⟨ns, h, by simp⟩
    rw [if_neg hmax', wp_bind]
    have hbelow : s.addr + (s.bytes.length + 1) ≤ kernBase := s.below
    refine wp_mono (h.touch hp hbelow) (fun _ k₂ hpost => ?_) (fun _ _ he => he)
    obtain ⟨ns₂, h₂, himage₂⟩ := hpost
    dsimp only
    rw [wp_bind]
    refine wp_mono (h₂.touch hp hbelow) (fun _ k₃ hpost => ?_) (fun _ _ he => he)
    obtain ⟨ns₃, h₃, himage₃⟩ := hpost
    rw [wp_bind]
    refine wp_mono (h₃.copyout (by omega)) (fun b k₄ hpost => ?_) (fun _ _ he => he)
    obtain ⟨h₄, hcopied⟩ := hpost
    cases b with
    | false => exact (wp_pure _).mpr ⟨_, h₄, by simp⟩
    | true =>
      have hcopied := hcopied rfl
      have hfit := hcopied.below (by simp)
      rw [List.length_append, List.length_singleton] at hfit
      have hle := push_le hsp (by omega) hfit
      refine wp_mono (ih h₄ (by omega) (by rw [List.length_append, List.length_singleton]; omega))
        (fun r k₅ hpost => ?_) (fun _ _ he => he)
      obtain ⟨ns₅, h₅, hr⟩ := hpost
      refine ⟨ns₅, h₅, fun q hq => ?_⟩
      obtain ⟨hlen, qs, hqs, hpushed⟩ := hr q hq
      refine ⟨hlen, _, hqs.trans (List.append_assoc _ _ _), Nat.le_trans hpushed.le (by omega),
        .cons ⟨hpushed.le, hcopied.bytes.above (Nat.le_refl _) hpushed.above⟩ hpushed.strings, fun va hva => ?_⟩
      rw [hpushed.above va (by omega), hcopied.above (by rw [List.length_append, List.length_singleton]; omega),
        himage₃, himage₂]

/-! ### The commit -/

/-- The new address space takes the place of the old one. -/
def Kernel.commit (k : Kernel) (p d sz : Nat) : Kernel :=
  (k.setProc p { k.proc p with pgdir := d, sz := sz }).lcr3 d

theorem onlyTable_commit : OnlyTable k (k.commit p d sz) := ⟨rfl⟩

theorem proc_commit : (k.commit p d sz).proc p = { k.proc p with pgdir := d, sz := sz } := setProc_self

theorem proc_commit_of_ne (hi : i ≠ p) : (k.commit p d sz).proc i = k.proc i := setProc_of_ne hi

/-- A directory that neither `p` nor a local variable holds stays where it is. -/
theorem dir_commit {d' : Nat} (hproc : x ≠ .proc p) (hheld : x ≠ .held) :
    (k.commit p d sz).Dir (H.build (k.proc p).pgdir) x d' ↔ k.Dir (H.build d) x d' := by
  cases x with
  | proc i =>
    have hi : i ≠ p := fun e => hproc (e ▸ rfl)
    simp only [Kernel.Dir, proc_commit_of_ne hi]
    exact Iff.rfl
  | kernel => exact Iff.rfl
  | held => exact absurd rfl hheld

section Commit
variable (h : Wf im k (H.build d)) (hp : k.cur = some p)
include h hp

/-- The two directories change places. -/
theorem Wf.commit (hgone : H.gone = none) (hsz : sz ≤ kernBase) :
    Wf im (k.commit p d sz) (H.build (k.proc p).pgdir) := by
  have hheld : k.Dir (H.build d) .held d := List.mem_cons_self
  have hcur := h.sane.dir_cur hp
  obtain ⟨hlt, hst, -⟩ := h.sane.run p hp
  have hold {x : Holder} (hx : k.Dir (H.build d) x (k.proc p).pgdir) : x = .proc p := h.acc.dir_unique hx hcur
  have hnew {x : Holder} (hx : k.Dir (H.build d) x d) : x = .held := h.acc.dir_unique hx hheld
  have hne : d ≠ (k.proc p).pgdir := fun he => by
    have := hold (x := .held) (show k.Dir (H.build d) .held (k.proc p).pgdir from he ▸ hheld)
    cases this
  obtain ⟨hnotin, hnd⟩ := List.nodup_cons.mp h.acc.dirs_nodup
  have hnotin' : (k.proc p).pgdir ∉ H.dirs := fun hm => by
    have := hold (x := .held) (List.mem_cons_of_mem d hm)
    cases this
  have hself : (k.commit p d sz).Dir (H.build (k.proc p).pgdir) (.proc p) d := by
    refine ⟨hlt, ?_, fun hg => ?_, ?_⟩
    · rw [proc_commit]
      exact hst ▸ hasVm_running
    · rw [Held.build, hgone] at hg
      cases hg
    · rw [proc_commit]
  have hproc {d' : Nat} (hx : (k.commit p d sz).Dir (H.build (k.proc p).pgdir) (.proc p) d') : d' = d := by
    have := hx.2.2.2
    rw [proc_commit] at this
    exact this.symm
  classical
  refine h.rename onlyTable_commit
    (fun d' y => if d' = d then .proc p else if d' = (k.proc p).pgdir then .held else y) (fun x d' => ?_)
    (fun i => ?_) rfl rfl (List.nodup_cons.mpr ⟨hnotin', hnd⟩) (fun i hi hs => ?_) (fun i hi => ?_)
    fun q hq => ?_
  · by_cases hd : d' = d
    · subst hd
      simp only [if_true]
      refine ⟨fun hx => ⟨.held, ?_, hheld⟩, ?_⟩
      · by_contra hxp
        by_cases hxh : x = .held
        · subst hxh
          exact (List.mem_cons.mp hx).elim hne hnotin
        · exact hxh (hnew ((dir_commit (Ne.symm hxp) hxh).mp hx))
      · rintro ⟨_, rfl, _⟩
        exact hself
    · by_cases hd' : d' = (k.proc p).pgdir
      · subst hd'
        simp only [if_neg hd, if_true]
        refine ⟨fun hx => ⟨.proc p, ?_, hcur⟩, ?_⟩
        · by_contra hxh
          by_cases hxp : x = .proc p
          · subst hxp
            exact hd (hproc hx)
          · exact hxp (hold ((dir_commit hxp (Ne.symm hxh)).mp hx))
        · rintro ⟨_, rfl, _⟩
          exact List.mem_cons_self
      · simp only [if_neg hd, if_neg hd', exists_eq_left]
        by_cases hxp : x = .proc p
        · subst hxp
          exact iff_of_false (fun hx => hd (hproc hx)) fun hx => hd' hx.2.2.2.symm
        by_cases hxh : x = .held
        · subst hxh
          simp only [Kernel.Dir, Held.build, List.mem_cons, hd, hd', false_or]
        · exact dir_commit hxp hxh
  · by_cases hip : i = p
    · rw [hip, proc_commit]
    · rw [proc_commit_of_ne hip]
  · by_cases hip : i = p
    · rw [hip, proc_commit]
      exact hsz
    · rw [proc_commit_of_ne hip] at hs ⊢
      exact h.sane.size i hi hs
  · rw [Held.build, hgone] at hi
    cases hi
  · obtain rfl : p = q := Option.some.inj (hp.symm.trans hq)
    exact ⟨hlt, by rw [proc_commit]; exact hst, by rw [proc_commit]; rfl⟩

end Commit

theorem page_isSome (h : k.In d pg) : (k.page d pg).isSome := by
  obtain ⟨e, he, hp⟩ := h
  rw [page_of_present he hp]
  rfl

section Committed
variable (hm : Making im k k₁ (leaving lost) d sz ns)
  (hq : Quiet noPage (k₁.commit p d sz) k' (leaving (ns ++ lost)))
include hm hq

theorem commit_others (hi : i ≠ p) : ∃ r, k'.proc i = { k.proc i with rss := r } := by
  obtain ⟨r, hr⟩ := hq.calm.proc i
  obtain ⟨r', hr'⟩ := hm.after.tame.calm.proc i
  exact ⟨r, by rw [hr, proc_commit_of_ne hi, hr']⟩

theorem commit_self : ∃ r, k'.proc p = { k.proc p with pgdir := d, sz := sz, rss := r } := by
  obtain ⟨r, hr⟩ := hq.calm.proc p
  obtain ⟨r', hr'⟩ := hm.after.tame.calm.proc p
  exact ⟨r, by rw [hr, proc_commit, hr']⟩

theorem page_commit_others (hi : i < nProc) (hs : HasVm (k.proc i).state) (hip : i ≠ p) (hpg : pg < userPages) :
    k'.page (k.proc i).pgdir pg = k.page (k.proc i).pgdir pg := by
  have hcalm := hm.after.tame.calm
  have hd : k.Dir (leaving lost) (.proc i) (k.proc i).pgdir := ⟨hi, hs, by rintro ⟨⟩, rfl⟩
  have hd₁ : k₁.Dir ((leaving (ns ++ lost)).build d) (.proc i) (k.proc i).pgdir :=
    ⟨hi, hcalm.state i ▸ hs, by rintro ⟨⟩, hcalm.pgdir i⟩
  have hd₂ : (k₁.commit p d sz).Dir (leaving (ns ++ lost)) (.proc i) (k.proc i).pgdir := by
    rw [Kernel.Dir, proc_commit_of_ne hip]
    exact hd₁
  have hout : ¬ofDir d (k.proc i).pgdir pg := fun hx => by
    have := hm.wf.acc.dir_unique hd₁ (y := .held) (show _ from hx ▸ List.mem_cons_self)
    cases this
  exact ((hq.page _ pg ⟨_, hd₂⟩ hpg id).trans (onlyTable_commit.page _ pg)).trans
    (hm.after.tame.page _ pg (live_build.mpr (.inr ⟨_, hd⟩)) hpg hout)

theorem page_commit_self (hp : k.cur = some p) (hpg : pg < userPages) : k'.page d pg = k₁.page d pg := by
  obtain ⟨hlt, hst, -⟩ := hm.wf.sane.run p (hm.cur hp)
  refine (hq.page d pg ⟨.proc p, hlt, ?_, by rintro ⟨⟩, ?_⟩ hpg id).trans (onlyTable_commit.page d pg)
  · rw [proc_commit]
    exact hst ▸ hasVm_running
  · rw [proc_commit]

theorem commit_ends (h : Sound im k lost) (hp : k.cur = some p) : Ends k' where
  tails i hi hs pg hlo hpg := by
    by_cases hip : i = p
    · subst hip
      obtain ⟨r, hr⟩ := commit_self hm hq
      rw [hr] at hlo ⊢
      exact (page_commit_self hm hq hp hpg).trans (page_eq_none.mpr (hm.built.rest pg hlo hpg))
    · obtain ⟨r, hr⟩ := commit_others hm hq hip
      rw [hr] at hs hlo ⊢
      exact (page_commit_others hm hq hi hs hip hpg).trans (h.good.ends.tails i hi hs pg hlo hpg)
  kstacks i hi := by
    by_cases hip : i = p
    · subst hip
      obtain ⟨r, hr⟩ := commit_self hm hq
      rw [hr]
      exact h.good.ends.kstacks i hi
    · obtain ⟨r, hr⟩ := commit_others hm hq hip
      rw [hr]
      exact h.good.ends.kstacks i hi

theorem commit_alters (h : Sound im k lost) (hp : k.cur = some p) :
    Alters k k' p fun _ s' => s'.Whole ∧ s'.page = (k₁.image d).page where
  others i hi hip := by
    obtain ⟨r, hr⟩ := commit_others hm hq hip
    refine space_congr (by rw [hr]) (by rw [hr]) fun hev pg hpg => ?_
    rw [hr]
    exact page_commit_others hm hq hi (.inl hev) hip hpg
  self := by
    obtain ⟨r, hr⟩ := commit_self hm hq
    have hev := h.good.evictable_cur hp
    refine ⟨_, _, space_of hev, space_of (by rw [hr]; exact hev), ?_⟩
    rw [hr]
    constructor
    · refine whole_mk hm.built.le (fun pg hpg => ?_) fun pg hlo hpg => ?_
      · exact page_commit_self hm hq hp (Nat.lt_of_lt_of_le hpg (pageCount_le hm.built.le)) ▸
          page_isSome (hm.built.full pg hpg)
      · exact (page_commit_self hm hq hp hpg).trans (page_eq_none.mpr (hm.built.rest pg hlo hpg))
    · funext pg
      rw [Kernel.image]
      dsimp only
      by_cases hpg : pg < userPages
      · rw [if_pos hpg, if_pos hpg, page_commit_self hm hq hp hpg]
      · rw [if_neg hpg, if_neg hpg]

end Committed

/-- The process `p` gets the new address space, and the old one is freed. -/
theorem commit_spec (h : Sound im k lost) (hp : k.cur = some p) (hm : Making im k k₁ (leaving lost) d sz ns)
    {Q : Bool → Kernel → Prop} (hQ : ∀ k' lost', Sound im k' lost' → k'.cur = some p → k'.Tight →
      Alters k k' p (fun _ s' => s'.Whole ∧ s'.page = (k₁.image d).page) → Q true k') :
    wp (do
      modify fun k => k.setProc p { k.proc p with pgdir := d, sz := sz }
      switchuvm p
      freevm im (k₁.proc p).pgdir
      pure true) k₁ Q E := by
  have hp₁ := hm.cur hp
  have h₂ : Wf im (k₁.commit p d sz) ((leaving (ns ++ lost)).build (k₁.proc p).pgdir) :=
    hm.wf.commit hp₁ rfl hm.built.le
  have hfree : wp (freevm im (k₁.proc p).pgdir) (k₁.commit p d sz) _ _ :=
    wp_and (freevm_spec (E := E) h₂) (freevm_logs im (k₁.proc p).pgdir _)
  have hcr3 : ((k₁.setProc p { k₁.proc p with pgdir := d, sz := sz }).proc p).pgdir = d := by rw [setProc_self]
  rw [wp_bind, wp_modify, wp_bind, wp_switchuvm, hcr3, wp_bind]
  refine wp_mono hfree (fun _ k' hpost => ?_) (fun _ _ he => he.1)
  obtain ⟨⟨hw, hq⟩, hl⟩ := hpost
  rw [wp_pure]
  have hfetches : fetches k'.trail = (ns ++ lost).length := by
    rw [hl.noFetch.fetches, show fetches (k₁.commit p d sz).trail = fetches k₁.trail from
      (Longer.cons rfl rfl : Longer NoFetch k₁ (k₁.commit p d sz)).fetches, hm.after.fetches, h.fetches, List.length_append]
  refine hQ k' (ns ++ lost) ⟨⟨hw, commit_ends hm hq h hp⟩, hfetches, hm.after.nodup h.nodup⟩
    (hq.calm.cur.trans hp₁) (hq.tame.tight ⟨.proc p, ?_⟩ (tight_lcr3 d)) (commit_alters hm hq h hp)
  obtain ⟨hlt, hst, -⟩ := hm.wf.sane.run p hp₁
  exact ⟨hlt, by rw [proc_commit]; exact hst ▸ hasVm_running, by rintro ⟨⟩, by rw [proc_commit]; rfl⟩

/-- The new directory is freed, and nobody has seen it. -/
theorem abandon_spec (h : Sound im k lost) (hp : k.cur = some p) (hm : Making im k k₁ (leaving lost) d sz ns) :
    wp (freevm im d) k₁
      (fun _ k' => Sound im k' (ns ++ lost) ∧ k'.cur = some p ∧ (k.Tight → k'.Tight) ∧ SameSpaces k k') E := by
  have hnot : ¬k.Live (leaving lost) d := by
    rintro ⟨x, hx⟩
    refine hm.wf.acc.not_live (H := leaving (ns ++ lost)) ⟨x, (hm.after.tame.calm.dir x).mpr ?_⟩
    cases x <;> exact hx
  refine wp_mono (wp_and (freevm_spec (H := leaving (ns ++ lost)) hm.wf) (freevm_logs im d k₁))
    (fun _ k' hpost => ?_) (fun _ _ he => he.1)
  obtain ⟨⟨hw, hq⟩, hl⟩ := hpost
  have ht : Tame noPage k k' (leaving lost) := by
    refine (hm.after.tame.unbuild.forget ?_).trans (Tame.losing ns hq.tame)
    rintro d' pg hd' rfl
    exact hnot hd'
  have ha : After im noPage k k' (leaving lost) ns :=
    ⟨hw, ht, hl.noFetch.fetches.trans hm.after.fetches, hm.after.nodup⟩
  exact ⟨h.after ha, ht.calm.cur.trans hp, ht.tight (h.good.wf.sane.live_cr3 hp), ht.sameSpaces h.good.wf.sane⟩

/-! ### `exec` -/

theorem length_words (ws : List Nat) : (ws.flatMap wordBytes).length = 4 * ws.length := by
  induction ws with
  | nil => rfl
  | cons w ws ih =>
    rw [List.flatMap_cons, List.length_append, ih, List.length_cons, wordBytes, List.length_map, List.length_range]
    omega

/-- Below the strings, `exec` puts `argc` and `argv`. -/
theorem Pushed.passed {argv : List UserString} {sp : Nat} {qs : List Nat} (h : Pushed k₁ k₂ d sz argv sp qs)
    (hsz : sz ≤ kernBase) (hlen : qs.length ≤ 32)
    (hcopied : CopiedOut k₂ k₃ d ((sp + 2 ^ 32 - (3 + qs.length + 1) * 4) % 2 ^ 32)
      (([0xffffffff, qs.length, (sp + 2 ^ 32 - (qs.length + 1) * 4) % 2 ^ 32] ++ qs ++ [0]).flatMap wordBytes)) :
    (k₃.image d).Passed argv := by
  have hle := h.le
  have hfit := hcopied.below (by simp [wordBytes])
  rw [length_words] at hfit
  simp only [List.length_append, List.length_cons, List.length_nil] at hfit
  have hsp : (sp + 2 ^ 32 - (3 + qs.length + 1) * 4) % 2 ^ 32 + (3 + qs.length + 1) * 4 = sp := by
    rw [kernBase] at *
    omega
  have hargv : (sp + 2 ^ 32 - (qs.length + 1) * 4) % 2 ^ 32 =
      (sp + 2 ^ 32 - (3 + qs.length + 1) * 4) % 2 ^ 32 + 12 := by
    rw [kernBase] at *
    omega
  have habove (a : Nat) (ha : sp ≤ a) : (k₃.image d).read a = (k₂.image d).read a := by
    refine hcopied.above ?_
    rw [length_words]
    simp only [List.length_append, List.length_cons, List.length_nil]
    omega
  refine ⟨(sp + 2 ^ 32 - (3 + qs.length + 1) * 4) % 2 ^ 32, qs,
    (h.strings.above habove).imp fun _ _ hq => ⟨Nat.zero_le _, hq.2⟩, ?_⟩
  rw [← hargv, h.strings.length_eq]
  exact hcopied.bytes

/-- How `execImage` ends: the image was built up to a failure, or was committed. -/
def Outcome (im : Image) (k : Kernel) (p d : Nat) (lost : List Nat) (argv : List UserString) (r : Bool)
    (k' : Kernel) : Prop :=
  (r = false ∧ ∃ sz ns, Making im k k' (leaving lost) d sz ns) ∨
    (r = true ∧ ∃ lost', Sound im k' lost' ∧ k'.cur = some p ∧ k'.Tight ∧
      Alters k k' p fun _ s' => s'.Whole ∧ s'.Passed argv)

theorem execImage_spec {phs : List Segment} {path : UserString} {argv : List UserString} (h : Sound im k lost)
    (hp : k.cur = some p) (hm : Making im k k₁ (leaving lost) d 0 ns) :
    wp (execImage im d phs path argv) k₁ (Outcome im k p d lost argv) Fails := by
  have hbad {k₂ : Kernel} {sz : Nat} {ns : List Nat} (h₂ : Making im k k₂ (leaving lost) d sz ns) :
      wp (pure false : Kern Bool) k₂ (Outcome im k p d lost argv) Fails := (wp_pure _).mpr (.inl ⟨rfl, sz, ns, h₂⟩)
  rw [execImage, wp_bind]
  refine wp_mono (loadSegments_spec phs hm hp) (fun r k₂ hpost => ?_) (fun _ _ he => he)
  obtain ⟨sz, h₂, hr⟩ := hpost
  cases r with
  | none => exact hbad h₂
  | some z =>
    obtain rfl := hr z rfl
    dsimp only
    rw [wp_bind]
    refine wp_mono (h₂.roundUp.alloc hp) (fun r k₃ hpost => ?_) (fun _ _ he => he)
    obtain ⟨sz, h₃, hr⟩ := hpost
    by_cases hz : r = 0
    · rw [if_pos hz]
      exact hbad h₃
    obtain ⟨rfl, hle, hlt⟩ := hr hz
    have hguard : sz - 2 * pgSize < sz := Nat.sub_lt (Nat.pos_of_ne_zero hz) (by decide)
    rw [if_neg hz, wp_bind]
    refine wp_mono (h₃.clear hguard) (fun _ k₄ h₄ => ?_) (fun _ _ he => he)
    rw [wp_bind]
    refine wp_mono (pushArgs_spec argv h₄ hp h₄.built.le (Nat.zero_le _)) (fun r k₅ hpost => ?_) (fun _ _ he => he)
    obtain ⟨ns₅, h₅, hr⟩ := hpost
    cases r with
    | none => exact hbad h₅
    | some q =>
      obtain ⟨sp, args⟩ := q
      dsimp only
      rw [wp_bind]
      obtain ⟨hlen, qs, hqs, hpushed⟩ := hr _ rfl
      obtain rfl : args = qs := hqs
      refine wp_mono (h₅.copyout (Nat.mod_lt _ (by decide))) (fun b k₆ hpost => ?_) (fun _ _ he => he)
      obtain ⟨h₆, hcopied⟩ := hpost
      cases b with
      | false => exact hbad h₆
      | true =>
        rw [if_pos rfl, wp_bind]
        have hbelow : path.addr + (path.bytes.length + 1) ≤ kernBase := path.below
        refine wp_mono (h₆.touch hp hbelow) (fun _ k₇ hpost => ?_) (fun _ _ he => he)
        obtain ⟨ns₇, h₇, himage⟩ := hpost
        rw [myproc]
        simp only [wp_bind, wp_get, h₇.cur hp, wp_pure]
        have hpassed := hpushed.passed h₄.built.le hlen (hcopied rfl)
        have hcommit := commit_spec (Q := Outcome im k p d lost argv) (E := Fails) h hp h₇ fun k' lost' hs hc ht ha =>
          .inr ⟨rfl, lost', hs, hc, ht, ha.mono fun _ s' _ hs' =>
            ⟨hs'.1, hpassed.congr ((Space.read_congr hs'.2).trans (by rw [himage]))⟩⟩
        simpa only [wp_bind, wp_pure] using hcommit

/-- `exec` gives the running process a whole new address space, or changes nothing. -/
theorem exec_spec {phs : Option (List Segment)} {path : UserString} {argv : List UserString}
    (h : Sound im k lost) (hp : k.cur = some p) :
    wp (exec im phs path argv) k
      (fun r k' => ∃ lost', Sound im k' lost' ∧ k'.cur = some p ∧ (k.Tight → k'.Tight) ∧
        ((r = -1 ∧ SameSpaces k k') ∨ (r = 0 ∧ Alters k k' p fun _ s' => s'.Whole ∧ s'.Passed argv))) Fails := by
  cases phs with
  | none => exact (wp_pure _).mpr ⟨lost, h, hp, id, .inl ⟨rfl, .refl k⟩⟩
  | some phs =>
    rw [exec, wp_bind]
    refine wp_mono (wp_and (setupkvm_spec (n := 0) (supply_fails im p) h.good.wf hp) (setupkvm_logs im k))
      (fun r k₁ hpost => ?_) (fun _ _ he => he.1)
    obtain ⟨⟨d, rfl, h₁, -, hq₁, hno⟩, hl₁⟩ := hpost
    dsimp only
    rw [wp_bind]
    refine wp_mono (execImage_spec h hp (.start h₁ hq₁ hl₁ hno)) (fun r k₂ hpost => ?_) (fun _ _ he => he)
    rcases hpost with ⟨rfl, sz, ns, hm⟩ | ⟨rfl, lost', hs, hc, ht, ha⟩
    · rw [if_neg Bool.false_ne_true, wp_bind]
      refine wp_mono (abandon_spec h hp hm) (fun _ k' hpost => ?_) (fun _ _ he => he)
      obtain ⟨hs, hc, ht, hsame⟩ := hpost
      exact (wp_pure _).mpr ⟨_, hs, hc, ht, .inl ⟨rfl, hsame⟩⟩
    · rw [if_pos rfl, wp_pure]
      exact ⟨lost', hs, hc, fun _ => ht, .inr ⟨rfl, ha⟩⟩

end Xv6.Swap
