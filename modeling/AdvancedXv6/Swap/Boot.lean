import AdvancedXv6.Swap.ExitSpec
import AdvancedXv6.Swap.ExecSpec

/-! `main`: from power on to the first process, with all memory accounted for. -/

namespace Xv6.Swap
open Function Effect Ownership

/-! ### The code -/

section Code
variable (im : Image)

/-- The frames from `start` up to `stop` go to the free list. -/
def freerange (start stop : Nat) : Kern Unit :=
  forEach ((List.range (stop - start)).map (start + ·)) (kfree im)

/-- The frames that `entrypgdir` maps end at 4 MB. -/
def kinit1 : Kern Unit := do
  modify fun k => { k with useLock := false }
  freerange im im.kend (4 * 1024 * 1024 / pgSize)

def kinit2 : Kern Unit := do
  freerange im (4 * 1024 * 1024 / pgSize) (physTop / pgSize)
  modify fun k => { k with useLock := true }

def initSwap : Kern Unit :=
  forEach (List.range numSlots) fun i => modify fun k => { k with swapSlots := update k.swapSlots i ⟨0, true⟩ }

def main (initcode : Page) : Kern Unit := do
  kinit1 im
  kvmalloc im
  initSwap
  kinit2 im
  userinit im initcode

end Code

/-- The kernel's variables before `main`, over any contents of memory and disk. -/
def powerOn (ram : Nat → Page) (disk : Nat → Block) : Kernel where
  mem := ram
  disk := disk
  bufs := []
  useLock := false
  kmemLocked := false
  freelist := []
  freePagesCount := 0
  tH := 100
  nPg := 4
  swapSlots := fun _ => ⟨0, false⟩
  proc := fun _ => ⟨0, nullFrame, nullFrame, .unused, 0, none, false, 0⟩
  nextpid := 1
  initproc := 0
  pipes := []
  kpgdir := nullFrame
  cur := none
  cr3 := 0
  tlb := fun _ => []
  trail := []

section Logs
variable (im : Image) (initcode : Page)

theorem freerange_logs (start stop : Nat) : Logs Plain (freerange im start stop) :=
  Within.forEach Longer.refl Longer.trans (kfree_logs im) _

theorem kvmalloc_logs : Logs Plain (kvmalloc im) := by
  refine .bind (setupkvm_logs im) fun r => ?_
  cases r with
  | none => exact .throw _
  | some d => exact .bind (.silent fun _ => rfl) fun _ => switchkvm_logs

theorem inituvm_logs (d : Nat) : Logs Plain (inituvm im d initcode) := by
  refine .bind (kalloc_logs im) fun r => ?_
  cases r with
  | none => exact .throw _
  | some mem =>
    exact .bind (.silent fun _ => rfl) fun _ => .bind (mappages_logs im _ _ _ _ _) fun _ => .silent fun _ => rfl

theorem userinit_logs : Logs Plain (userinit im initcode) := by
  refine .bind (allocproc_logs im) fun r => ?_
  cases r with
  | none => exact .throw _
  | some p =>
    refine .bind (.silent fun _ => rfl) fun _ => .bind (setupkvm_logs im) fun r => ?_
    cases r with
    | none => exact .throw _
    | some d => exact .bind (inituvm_logs im initcode d) fun _ => .silent fun _ => rfl

theorem initSwap_logs : Logs Plain initSwap := by
  have hslot (i : Nat) : Logs Plain (modify fun k : Kernel =>
      { k with swapSlots := update k.swapSlots i ⟨0, true⟩ }) := .silent fun _ => rfl
  rw [initSwap]
  generalize List.range numSlots = is
  exact Within.forEach Longer.refl Longer.trans hslot is

theorem main_logs : Logs Plain (main im initcode) := by
  rw [main, kinit1, kinit2]
  exact .bind (.bind (.silent fun _ => rfl) fun _ => freerange_logs im _ _) fun _ => .bind (kvmalloc_logs im) fun _ =>
    .bind initSwap_logs fun _ => .bind (.bind (freerange_logs im _ _) fun _ => .silent fun _ => rfl) fun _ =>
      userinit_logs im initcode

end Logs

variable {im : Image} {k k₀ k' : Kernel} {H : Held} {d n p : Nat} {E : Panic → Kernel → Prop}
  {ram : Nat → Page} {disk : Nat → Block} {initcode : Page}

/-! ### The free list -/

def Image.frames (im : Image) : List Nat := (List.range (physTop / pgSize - im.kend)).map (im.kend + ·)

/-- Before `main` no page and no slot has been handed out. -/
def Image.unclaimed (im : Image) : Held :=
  ⟨[], im.frames.map .frame ++ (List.range numSlots).map .slot, [], none⟩

theorem mem_frames {f : Nat} : f ∈ im.frames ↔ im.Valid f := by
  rw [Image.frames, List.mem_map, Image.Valid]
  constructor
  · rintro ⟨i, hi, rfl⟩
    have := List.mem_range.mp hi
    omega
  · rintro ⟨hlo, hhi⟩
    exact ⟨f - im.kend, List.mem_range.mpr (by omega), by omega⟩

theorem frames_nodup (im : Image) : im.frames.Nodup :=
  List.nodup_range.map fun _ _ h => Nat.add_left_cancel h

theorem not_dir_powerOn {x : Holder} : ¬(powerOn ram disk).Dir im.unclaimed x d := by
  cases x with
  | proc i => exact fun h => not_hasVm_unused h.2.1
  | kernel => exact fun h => h.2 h.1.symm
  | held => exact List.not_mem_nil

theorem refers_powerOn {r : Ref} {a : Res} :
    (powerOn ram disk).Refers im.unclaimed r a ↔ r = .held ∧ a ∈ im.unclaimed.res := by
  have hlive (d : Nat) : ¬(powerOn ram disk).Live im.unclaimed d := fun h => h.elim fun _ hx => not_dir_powerOn hx
  cases r with
  | held => simp only [Kernel.Refers, true_and]
  | free =>
    cases a with
    | frame f => simp [Kernel.Refers, Kernel.Free, powerOn]
    | slot n => simp [Kernel.Refers, Kernel.Free, powerOn]
  | lost => simp [Kernel.Refers, Image.unclaimed]
  | pipe => simp [Kernel.Refers, powerOn]
  | kstack i => simp [Kernel.Refers, powerOn]
  | dir x => simp [Kernel.Refers, not_dir_powerOn]
  | tab d i => simp [Kernel.Refers, hlive]
  | user d pg => simp [Kernel.Refers, hlive]

theorem mem_unclaimed {a : Res} : a ∈ im.unclaimed.res ↔ im.Stock a := by
  cases a with
  | frame f => simp [Image.unclaimed, mem_frames, Image.Stock]
  | slot n => simp [Image.unclaimed, Image.Stock]

theorem wf_powerOn : Wf im (powerOn ram disk) im.unclaimed where
  acc :=
    { exact :=
        { unique := fun hr hs => (refers_powerOn.mp hr).1.trans (refers_powerOn.mp hs).1.symm
          valid := fun hr => mem_unclaimed.mp (refers_powerOn.mp hr).2
          covered := fun hv => ⟨.held, refers_powerOn.mpr ⟨rfl, mem_unclaimed.mpr hv⟩⟩ }
      free_nodup := List.nodup_nil
      pipes_nodup := List.nodup_nil
      res_nodup := by
        refine List.nodup_append'.mpr ⟨(frames_nodup im).map fun _ _ h => Res.frame.inj h,
          List.nodup_range.map fun _ _ h => Res.slot.inj h, fun a ha hb => ?_⟩
        obtain ⟨f, -, rfl⟩ := List.mem_map.mp ha
        obtain ⟨n, -, hn⟩ := List.mem_map.mp hb
        cases hn
      dirs_nodup := List.nodup_nil
      count := rfl }
  sane :=
    { unlocked := rfl
      tH_nonneg := Int.natCast_nonneg 100
      nPg_ge := Int.le_refl 4
      nPg_le := show (4 : Int) ≤ 100 by decide
      perm := fun d pg e n hd => hd.elim fun _ hx => absurd hx not_dir_powerOn
      upper := fun d pg e hd => hd.elim fun _ hx => absurd hx not_dir_powerOn
      size := fun i hi hs => absurd hs not_hasVm_unused
      gone := fun i hi => by cases hi
      run := fun p hp => by cases hp
      bufs := fun b hb => by cases hb }

/-- `freerange` of frames in local variables. -/
theorem freerange_spec (fs : List Nat) (h : Wf im k { H with res := fs.map .frame ++ H.res }) :
    wp (forEach fs (kfree im)) k (fun _ k' => Wf im k' H ∧
      k' = { k with
        mem := k'.mem, freelist := k'.freelist, freePagesCount := k.freePagesCount + fs.length }) E := by
  induction fs generalizing k with
  | nil =>
    rw [forEach, wp_pure]
    exact ⟨h, by simp⟩
  | cons f fs ih =>
    have h : Wf im k (Held.hold { H with res := fs.map .frame ++ H.res } (.frame f)) := h
    rw [forEach, wp_bind, wp_kfree h.held_valid h.sane.unlocked]
    refine wp_mono (ih (k := k.freed f) h.freed)
      (fun _ k' hpost => ⟨hpost.1, ?_⟩) fun _ _ he => he
    obtain ⟨-, hk⟩ := hpost
    rw [hk]
    simp only [Kernel.freed, List.length_cons, Nat.cast_add, Nat.cast_one, Kernel.mk.injEq, true_and, and_true]
    omega

/-- `init_swap` of slots in local variables. -/
theorem initSwap_spec (ns : List Nat) (h : Wf im k { H with res := ns.map .slot ++ H.res }) :
    wp (forEach ns fun i => modify fun k => { k with swapSlots := update k.swapSlots i ⟨0, true⟩ }) k
      (fun _ k' => Wf im k' H ∧ k' = { k with swapSlots := k'.swapSlots }) E := by
  induction ns generalizing k with
  | nil =>
    rw [forEach, wp_pure]
    exact ⟨h, rfl⟩
  | cons n ns ih =>
    have h : Wf im k (Held.hold { H with res := ns.map .slot ++ H.res } (.slot n)) := h
    rw [forEach, wp_bind, wp_modify]
    refine wp_mono (ih (k := k.released n) h.released)
      (fun _ k' hpost => ⟨hpost.1, ?_⟩) fun _ _ he => he
    obtain ⟨-, hk⟩ := hpost
    rw [hk]
    rfl

/-! ### The kernel's page table -/

/-- No process exists. -/
structure Idle (k : Kernel) : Prop where
  cur : k.cur = none
  state : ∀ i, (k.proc i).state = .unused
  kstack : ∀ i, (k.proc i).kstack = nullFrame

theorem Idle.calm (h : Idle k) (hc : Calm k k') : Idle k' :=
  ⟨hc.cur.trans h.cur, fun i => (hc.state i).trans (h.state i), fun i => (hc.kstack i).trans (h.kstack i)⟩

theorem Idle.not_hasVm (h : Idle k) (i : Nat) : ¬HasVm (k.proc i).state := by
  rw [h.state]
  exact not_hasVm_unused

/-- The first directory becomes the kernel's. -/
theorem Wf.installKernel (h : Wf im k (H.build d)) (hi : Idle k) (hnull : k.kpgdir = nullFrame) :
    Wf im (Kernel.lcr3 { k with kpgdir := d } d) H := by
  have hd : k.Live (H.build d) d := ⟨.held, List.mem_cons_self⟩
  obtain ⟨hnew, hnodup⟩ := List.nodup_cons.mp h.acc.dirs_nodup
  classical
  refine h.rename ⟨rfl⟩ (fun e y => if e = d then .kernel else y) (fun x e => ?_) (fun _ => rfl) rfl rfl
    hnodup (fun i _ hs => absurd hs (hi.not_hasVm i)) (fun i hg => h.sane.gone i hg) fun p hp => ?_
  · by_cases he : e = d
    · subst he
      simp only [if_true]
      constructor
      · intro hx
        cases x with
        | kernel => exact ⟨.held, rfl, List.mem_cons_self⟩
        | proc i => exact absurd hx.2.1 (hi.not_hasVm i)
        | held => exact absurd hx hnew
      · rintro ⟨y, rfl, -⟩
        exact ⟨rfl, (hd.valid h.acc).ne_null⟩
    · simp only [if_neg he, exists_eq_left]
      cases x with
      | kernel =>
        refine iff_of_false (fun hx => he hx.1.symm) fun hx => hx.2 ?_
        rw [← hx.1, hnull]
      | proc i => exact iff_of_false (fun hx => hi.not_hasVm i hx.2.1) fun hx => hi.not_hasVm i hx.2.1
      | held =>
        show e ∈ H.dirs ↔ e ∈ d :: H.dirs
        rw [List.mem_cons, or_iff_right he]
  · exact absurd ((show k.cur = some p from hp).symm.trans hi.cur) (by simp)

theorem kvmalloc_spec (h : Wf im k H) (hi : Idle k) (hnull : k.kpgdir = nullFrame) (hA : Stocked (n + 10) k) :
    wp (kvmalloc im) k (fun _ k' => Wf im k' H ∧ Idle k' ∧ Stocked n k') fun _ _ => False := by
  rw [kvmalloc, wp_bind]
  refine wp_mono (setupkvm_spec (supply_stocked im) h hA) (fun r k₁ hpost => ?_) fun _ _ he => he
  obtain ⟨d, rfl, h₁, hA₁, hq₁, -⟩ := hpost
  have hi₁ := hi.calm hq₁.calm
  simp only [wp_bind, wp_modify, switchkvm]
  refine ⟨h₁.installKernel hi₁ (hq₁.calm.kpgdir.trans hnull), ⟨hi₁.cur, hi₁.state, hi₁.kstack⟩, hA₁.1,
    fun e va hm => ?_⟩
  exact hA₁.2 e va ((List.mem_cons.mp hm).resolve_left (by simp))

/-! ### The first process -/

/-- The page of `initcode`, and no other. -/
structure OnePaged (k : Kernel) (d : Nat) (initcode : Page) : Prop where
  first : k.page d 0 = some ⟨fun i => initcode i, pteW ||| pteU⟩
  rest : ∀ pg, 0 < pg → pg < userPages → k.page d pg = none

theorem inituvm_spec (h : Wf im k (H.build d)) (hA : Stocked (n + 2) k)
    (hno : ∀ i, i < userPages / 1024 → ¬Present (k.mem d i)) :
    wp (inituvm im d initcode) k (fun _ k' => Wf im k' (H.build d) ∧ Stocked n k' ∧ Calm k k' ∧
      OnePaged k' d initcode ∧ k'.In d 0) fun _ _ => False := by
  have hs := supply_stocked im
  have hd : k.Live (H.build d) d := ⟨.held, List.mem_cons_self⟩
  have hnone (pg : Nat) (hpg : pg < userPages) : k.Empty d pg := by
    intro e he
    rw [Kernel.entry, if_neg (hno _ (Nat.div_lt_of_lt_mul hpg))] at he
    cases he
  rw [inituvm, wp_bind]
  refine wp_mono (hs.alloc (n := n + 1) h hA) (fun r k₁ hpost => ?_) fun _ _ he => he
  obtain ⟨f, rfl, h₁, hq₁, hA₁⟩ := hpost
  have hq₂ := hq₁.trans ((still_fill h₁.acc fun _ => 0).quiet_same rfl rfl)
  have hA₂ : Stocked (n + 1) (k₁.setPage f fun _ => 0) := hA₁
  have hle := Nat.add_le_add_left (tableless_le_one : (k₁.setPage f fun _ => 0).tableless d 0 ≤ 1) n
  have h₂ := h₁.fill fun _ => 0
  dsimp only
  rw [wp_bind, wp_modify, wp_bind, mappages_page (a := 0) (by decide) rfl]
  refine wp_mono (mapOne_spec (n := n) hs.source h₂ (hq₂.calm.live.mpr hd) (hs.less hle hA₂) (a := 0) (by decide)
    (by decide) (h₂.beyond_built (d := d) List.mem_cons_self)
    (hq₂.empty hd (by decide) id (hnone 0 (by decide)))) (fun r k₃ hpost => ?_) fun _ _ he => he
  obtain ⟨-, h₃, hq₃, hA₃, he₃, -⟩ := hpost
  have hq : Quiet (onePage d 0) k k₃ (H.build d) := hq₂.weaken.trans hq₃
  have hframe : frameOf (mapEntry f (pteW ||| pteU)) = f := frameOf_mapEntry h₁.held_valid.lt (by decide)
  have hfill : Filled im k₃ (k₃.setPage f initcode) (H.build d) d := by
    have := Filled.fill (P := initcode) h₃ (hq.calm.live.mpr hd) (by decide) he₃ (present_mapEntry f _)
    rwa [hframe] at this
  rw [wp_modify]
  refine ⟨hfill.wf, hA₃, hq.calm.trans hfill.tame.calm, ⟨?_, fun pg hlo hpg => page_eq_none.mpr fun e he => ?_⟩, _,
    (hfill.entry 0 (by decide)).trans he₃, present_mapEntry f _⟩
  · rw [page_of_map (by decide) h₁.held_valid ((hfill.entry 0 (by decide)).trans he₃), setPage_mem_self,
      permOf_wu]
  · rw [hfill.entry pg (lt_tablePages hpg)] at he
    exact hq.empty hd (lt_tablePages hpg) (fun hx => by
      have := hx.2
      omega) (hnone pg hpg) e he

/-- A process of one page that can run. -/
structure First (k : Kernel) (i : Nat) (initcode : Page) : Prop where
  lt : i < nProc
  state : (k.proc i).state = .runnable
  sz : (k.proc i).sz = pgSize
  pages : OnePaged k (k.proc i).pgdir initcode
  present : k.In (k.proc i).pgdir 0
  init : k.initproc = i
  others : ∀ j, j ≠ i → (k.proc j).state = .unused

theorem userinit_spec (h : Wf im k (leaving [])) (hi : Idle k) (hA : Stocked (n + 13) k) :
    wp (userinit im initcode) k (fun _ k' => Good im k' [] ∧ k'.cur = none ∧ ∃ i, First k' i initcode)
      fun _ _ => False := by
  have hs := supply_stocked im
  rw [userinit, wp_bind]
  refine wp_mono (allocproc_spec (n := n + 12) hs h (fun i _ _ => hi.kstack i) rfl hA) (fun r k₁ hpost => ?_)
    fun _ _ he => he
  rcases hpost with ⟨-, -, hno⟩ | ⟨i, rfl, hun, h₁, hA₁, hm₁, hemb⟩
  · exact absurd (hi.state 0) (hno 0 (by decide))
  have hother (j : Nat) (hj : j ≠ i) : (k₁.proc j).state = .unused ∧ (k₁.proc j).kstack = nullFrame := by
    obtain ⟨r, hr⟩ := hemb.others j hj
    rw [hr]
    exact ⟨hi.state j, hi.kstack j⟩
  dsimp only
  rw [wp_bind, wp_modify, wp_bind]
  have h₂ : Wf im { k₁ with initproc := i } (leaving []) := ⟨{ h₁.acc with }, { h₁.sane with }⟩
  refine wp_mono (setupkvm_spec (n := n + 2) hs h₂ hA₁) (fun r k₃ hpost => ?_) fun _ _ he => he
  obtain ⟨d, rfl, h₃, hA₃, hq₃, hno⟩ := hpost
  dsimp only
  rw [wp_bind]
  refine wp_mono (inituvm_spec h₃ hA₃ hno) (fun _ k₄ hpost => ?_) fun _ _ he => he
  obtain ⟨h₄, -, hcalm, hpages, hin⟩ := hpost
  have hc := hq₃.calm.trans hcalm
  have hstate (j : Nat) : (k₄.proc j).state = (k₁.proc j).state := hc.state j
  have hkstack (j : Nat) : (k₄.proc j).kstack = (k₁.proc j).kstack := hc.kstack j
  have hemb₄ : ¬HasVm (k₄.proc i).state := by
    rw [hstate, hemb.state]
    exact not_hasVm_embryo
  rw [wp_modify]
  have hself : (k₄.setProc i { k₄.proc i with pgdir := d, sz := pgSize, state := .runnable }).proc i =
      { k₄.proc i with pgdir := d, sz := pgSize, state := .runnable } := setProc_self
  have hpage (d' pg : Nat) : (k₄.setProc i { k₄.proc i with
      pgdir := d, sz := pgSize, state := .runnable }).page d' pg = k₄.page d' pg :=
    OnlyTable.page ⟨rfl⟩ d' pg
  refine ⟨⟨h₄.install hemb.lt hemb₄ (.inl rfl) rfl rfl (show pgSize ≤ kernBase by decide), fun j hj hs pg hlo hpg => ?_, fun j hj => ?_⟩,
    hc.cur.trans (hm₁.cur.trans hi.cur), i, hemb.lt, by rw [hself], by rw [hself], ⟨?_, fun pg hlo hpg => ?_⟩, ?_, hc.initproc, fun j hj => ?_⟩
  · by_cases hji : j = i
    · subst hji
      rw [hself] at hlo ⊢
      exact (hpage d pg).trans (hpages.rest pg
        (Nat.lt_of_lt_of_le (show 0 < pageCount pgSize by decide) hlo) hpg)
    · rw [setProc_of_ne hji, hstate, (hother j hji).1] at hs
      exact absurd hs not_hasVm_unused
  · by_cases hji : j = i
    · subst hji
      rw [hself]
      refine iff_of_false (by simp) ?_
      show (k₄.proc j).kstack ≠ nullFrame
      rw [hkstack]
      exact hemb.kstack
    · rw [setProc_of_ne hji, hstate, hkstack]
      exact iff_of_true (hother j hji).1 (hother j hji).2
  · rw [hself]
    exact (hpage d 0).trans hpages.first
  · rw [hself]
    exact (hpage d pg).trans (hpages.rest pg hlo hpg)
  · rw [hself]
    exact hin
  · rw [setProc_of_ne hj, hstate]
    exact (hother j hj).1

/-- From power on to the first process, with room for 24 pages above the threshold. -/
theorem main_spec (hroom : im.kend + 124 ≤ physTop / pgSize) :
    wp (main im initcode) (powerOn ram disk)
      (fun _ k => Good im k [] ∧ k.cur = none ∧ ∃ i, First k i initcode) fun _ _ => False := by
  have hlen : im.frames.length = physTop / pgSize - im.kend := by
    rw [Image.frames, List.length_map, List.length_range]
  rw [main, wp_bind, kinit1, wp_bind, wp_modify, freerange]
  refine wp_mono (freerange_spec (H := ⟨[], (List.range numSlots).map .slot ++ [], [], none⟩) im.frames
    (k := powerOn ram disk) ?_) (fun _ k₁ hpost => ?_) fun _ _ he => he
  · have : Wf im (powerOn ram disk) im.unclaimed := wf_powerOn
    unfold Image.unclaimed at this
    rw [List.append_nil]
    generalize (List.range numSlots).map Res.slot = slots at this ⊢
    exact this
  obtain ⟨h₁, hk₁⟩ := hpost
  have hi₁ : Idle k₁ := by
    rw [hk₁]
    exact ⟨rfl, fun _ => rfl, fun _ => rfl⟩
  have hA₁ : Stocked 23 k₁ := by
    have htH : k₁.tH = 100 := by rw [hk₁]; rfl
    have hcount : k₁.freePagesCount = im.frames.length := by
      rw [hk₁]
      exact Int.zero_add _
    have htrail : k₁.trail = [] := by rw [hk₁]; rfl
    refine ⟨?_, fun d va hm => ?_⟩
    · rw [htH, hcount, hlen]
      generalize physTop / pgSize = top at hroom
      omega
    · rw [htrail] at hm
      cases hm
  rw [wp_bind]
  refine wp_mono (kvmalloc_spec (n := 13) h₁ hi₁ (by rw [hk₁]; rfl) hA₁) (fun _ k₂ hpost => ?_) fun _ _ he => he
  obtain ⟨h₂, hi₂, hA₂⟩ := hpost
  rw [wp_bind, initSwap]
  refine wp_mono (initSwap_spec (H := leaving []) _ h₂) (fun _ k₃ hpost => ?_) fun _ _ he => he
  obtain ⟨h₃, hk₃⟩ := hpost
  have hi₃ : Idle k₃ := by
    rw [hk₃]
    exact ⟨hi₂.cur, hi₂.state, hi₂.kstack⟩
  have hA₃ : Stocked 13 k₃ := by
    rw [hk₃]
    exact hA₂
  -- there is no memory above 4 MB
  rw [wp_bind, kinit2, wp_bind, freerange, show physTop / pgSize - 4 * 1024 * 1024 / pgSize = 0 from rfl,
    List.range_zero, List.map_nil, forEach, wp_pure, wp_modify]
  refine userinit_spec (k := { k₃ with useLock := true }) (n := 0) ⟨{ h₃.acc with }, { h₃.sane with }⟩
    ⟨hi₃.cur, hi₃.state, hi₃.kstack⟩ hA₃

end Xv6.Swap
