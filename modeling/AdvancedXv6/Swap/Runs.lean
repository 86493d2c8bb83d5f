import AdvancedXv6.Swap.Growth
import AdvancedXv6.Swap.Refine

/-! Whole runs from power on: the memory stays accounted for, and what the processes see of it is what
the flat machine does. -/

namespace Xv6.Swap
open Function Effect Ownership

variable {im : Image} {k k₀ k₁ k₂ k₃ k' : Kernel} {lost : List Nat} {p va : Nat} {op : Op} {r : Reply}
  {e : Op × Reply} {es es' : List (Op × Reply)} {b b' : BitVec 8} {err : Panic} {initcode : Page}
  {ram : Nat → Page} {disk : Nat → Block}

/-! ### Steps -/

theorem Shared.of_longer (h : Shared k'.trail) (hl : Longer NoShare k k') : Shared k.trail := by
  obtain ⟨d, va, hmem⟩ := h
  obtain ⟨evs, htrail, hev⟩ := hl
  rw [htrail, List.mem_append] at hmem
  exact ⟨d, va, hmem.resolve_left fun hm => hev _ hm d va rfl⟩

theorem Logs.ok {α : Type} {m : Kern α} {a : α} {P : Event → Prop} (hm : Logs P m) (hrun : m k = .ok a k') :
    Longer P k k' := by
  have hlong := hm k
  rwa [wp_iff_of_ok hrun] at hlong

theorem Logs.error {α : Type} {m : Kern α} {P : Event → Prop} (hm : Logs P m) (hrun : m k = .error err k') :
    Longer P k k' := by
  have hlong := hm k
  rw [wp] at hlong
  rwa [hrun] at hlong

/-- Only `fork` makes two entries name one slot. -/
theorem Op.run_logs (im : Image) (hop : op ≠ .fork) : Logs NoShare (op.run im) := by
  have hmap {α : Type} {m : Kern α} {f : α → Reply} (hm : Logs NoShare m) : Logs NoShare (f <$> m) := fun k => by
    rw [wp_map]
    exact hm k
  cases op with
  | load va => exact hmap (userLoad_logs va).noShare
  | store va b => exact hmap (userStore_logs va b).noShare
  | access va n => exact hmap (touchRange_logs im va n)
  | pageFault va user => exact hmap (trapPgflt_logs im va user)
  | sbrk n => exact hmap (growproc_logs im n).noShare
  | fork => exact absurd rfl hop
  | exec phs path argv => exact hmap (exec_logs im phs path argv)
  | exit => exact hmap exit_logs.noShare
  | wait => exact hmap (wait_logs im).noShare
  | pipe => exact hmap (pipealloc_logs im).noShare
  | close f => exact hmap (pipeclose_logs im f).noShare
  | kill pid => exact hmap (kill_logs pid).noShare
  | wakeup chan => exact hmap (wakeup_logs chan).noShare
  | sched s => exact hmap (sched_logs s).noShare
  | dispatch q => exact hmap (dispatch_logs q).noShare
  | evict => exact hmap (swapOutOnePage_logs im).noShare

/-- What holds in every state of a run. -/
structure Live (im : Image) (k : Kernel) : Prop where
  sound : ∃ lost, Sound im k lost
  unshared : ¬Shared k.trail

theorem CleanStep.keeps (h : Live im k) (hs : CleanStep im k e k') : Live im k' ∧ Fine k e k' := by
  obtain ⟨⟨hen, hrun⟩, hclean⟩ := hs
  rename_i op r
  obtain ⟨lost, hsound⟩ := h.sound
  have hno : ¬Shared k'.trail := by
    by_cases hop : op = .fork
    · exact hclean hop
    · exact fun hsh => h.unshared (hsh.of_longer ((Op.run_logs im hop).ok hrun))
  obtain ⟨hsound', hfine⟩ := (wp_ok (Op.spec hsound hen) hrun).resolve_left hno
  exact ⟨⟨hsound', hno⟩, hfine⟩

/-! ### From power on -/

/-- The kernel as `main` leaves it. -/
structure Booted (im : Image) (k : Kernel) : Prop where
  sound : Sound im k []
  unshared : ¬Shared k.trail
  idle : k.cur = none
  whole : k.AllWhole

theorem First.whole {i : Nat} (h : First k i initcode) : k.AllWhole := by
  intro j m hm
  rw [Kernel.flat] at hm
  dsimp only at hm
  by_cases hj : j < nProc
  swap
  · rw [if_neg hj] at hm
    cases hm
  rw [if_pos hj] at hm
  by_cases hji : j = i
  · subst hji
    have hcount : pageCount (k.proc j).sz = 1 := by rw [h.sz]; rfl
    rw [space_of (h.state ▸ .inl rfl)] at hm
    cases hm
    refine whole_mk (by rw [h.sz]; decide) (fun pg hpg => ?_) fun pg hlo hpg => ?_
    · obtain rfl : pg = 0 := Nat.lt_one_iff.mp (hcount ▸ hpg)
      rw [h.pages.first]
      rfl
    · exact h.pages.rest pg (by omega) hpg
  · rw [space_none (by rw [h.others j hji]; exact not_evictable_unused)] at hm
    cases hm

theorem booted (hroom : im.kend + 124 ≤ physTop / pgSize) (hmain : main im initcode (powerOn ram disk) = .ok () k) :
    Booted im k := by
  have hspec : wp (main im initcode) (powerOn ram disk) _ _ := main_spec hroom
  rw [wp_iff_of_ok hmain] at hspec
  obtain ⟨hg, hcur, i, hf⟩ := hspec
  have hlong := (main_logs im initcode).ok hmain
  have hno : ¬Shared (powerOn ram disk).trail := by
    rintro ⟨d, va, hmem⟩
    cases hmem
  exact ⟨⟨hg, hlong.noFetch.fetches, List.nodup_nil⟩, fun hsh => hno (hsh.of_longer hlong.noShare), hcur, hf.whole⟩

theorem Booted.live (h : Booted im k) : Live im k := ⟨⟨[], h.sound⟩, h.unshared⟩

theorem Reached.live (hroom : im.kend + 124 ≤ physTop / pgSize) (h : Reached im (CleanStep im) k) : Live im k := by
  obtain ⟨initcode, ram, disk, k₀, es, hmain, hes⟩ := h
  exact hes.invariant (fun _ _ _ hl hs => (hs.keeps hl).1) (booted hroom hmain).live

/-- What holds besides if no `sbrk` ever frees all pages and fails. -/
structure Steady (im : Image) (k : Kernel) : Prop where
  live : Live im k
  tight : k.cur.isSome → k.Tight
  whole : k.AllWhole

theorem Reached.steady (hroom : im.kend + 124 ≤ physTop / pgSize) (h : Reached im (SteadyStep im) k) : Steady im k := by
  obtain ⟨initcode, ram, disk, k₀, es, hmain, hes⟩ := h
  have hb := booted hroom hmain
  refine hes.invariant (fun s e t hl hs => ?_) ⟨hb.live, fun hc => ?_, hb.whole⟩
  · obtain ⟨hclean, hno⟩ := hs
    obtain ⟨hlive, hfine⟩ := hclean.keeps hl.live
    exact ⟨hlive, hfine.tight hno hl.tight, hfine.whole hno hl.whole⟩
  · rw [hb.idle] at hc
    cases hc

theorem Reached.clean (h : Reached im (SteadyStep im) k) : Reached im (CleanStep im) k := by
  obtain ⟨initcode, ram, disk, k₀, es, hmain, hes⟩ := h
  exact ⟨initcode, ram, disk, k₀, es, hmain, hes.mono fun _ _ _ hs => hs.1⟩

/-! ### The first process -/

/-- The first process runs, with its page in memory. -/
structure FirstRun (im : Image) (k₀ k : Kernel) (p : Nat) (w : Word) : Prop where
  booted : main im (fun _ => 0) (powerOn (fun _ _ => 0) fun _ _ => 0) = .ok () k₀
  step : PromptStep im k₀ (.dispatch p, .done) k
  cur : k.cur = some p
  lt : p < nProc
  init : k.initproc = p
  readable : Readable k 0 w
  writable : Writable w
  cached : w ∈ k.tlb 0

theorem smallImage_room : smallImage.kend + 124 ≤ physTop / pgSize := by decide

theorem exists_firstRun : ∃ k₀ k p w, FirstRun smallImage k₀ k p w := by
  have hspec : wp (main smallImage fun _ => 0) (powerOn (fun _ _ => 0) fun _ _ => 0) _ _ := main_spec smallImage_room
  obtain ⟨_, k₀, hmain, hg, hcur, p, hf⟩ := exists_ok_of_wp hspec
  obtain ⟨w, hw, hpres⟩ := hf.present
  have hperm : permOf w = pteW ||| pteU := by
    have hpage := hf.pages.first
    rw [Kernel.page, hw, Option.bind_some, names_present hpres, Option.map_some, Option.some.injEq] at hpage
    exact congrArg UserPage.perm hpage
  have hrun : dispatch p k₀ = .ok () (Kernel.setProc (Kernel.lcr3 { k₀ with cur := some p } (k₀.proc p).pgdir) p
      { k₀.proc p with state := .running }) := rfl
  have hstep : Step smallImage k₀ (.dispatch p, .done) _ := .mk ⟨hcur, hf.lt, hf.state⟩ (map_ok hrun)
  refine ⟨k₀, _, p, w, hmain, ⟨⟨hstep, Op.noConfusion⟩, Op.noConfusion⟩, rfl, hf.lt, hf.init, ⟨hw, hpres, ?_⟩, ?_, ?_⟩
  · exact (user_congr (hperm.trans permOf_wu.symm)).mpr (by decide)
  · exact (writable_permOf w).mp (hperm ▸ by decide)
  · show w ∈ ((k₀.entry (k₀.proc p).pgdir 0).filter fun e => Present e).toList
    rw [hw, Option.filter_some_pos (by simpa using hpres)]
    exact List.mem_singleton_self w

theorem FirstRun.path {w : Word} (h : FirstRun im k₀ k p w) : Run.Path (PromptStep im) k₀ [(.dispatch p, .done)] k :=
  .cons h.step (.nil k)

theorem FirstRun.reached {w : Word} (h : FirstRun im k₀ k p w) : Reached im (SteadyStep im) k :=
  ⟨_, _, _, k₀, _, h.booted, .cons ⟨h.step.1, id⟩ (.nil k)⟩

/-! ### Memory -/

/-- As long as no `sbrk` fails after it freed all pages, the MMU uses no translation but those of the loaded
table and those of pages that were evicted since it was loaded. -/
theorem tlb_stale_only_evicted (hroom : im.kend + 124 ≤ physTop / pgSize) (h : Reached im (SteadyStep im) k)
    (hrun : k.cur.isSome) {pg : Nat} {w : Word} (hpg : pg < tablePages) (hw : w ∈ k.tlb pg) :
    (∃ w', k.entry k.cr3 pg = some w' ∧ Kernel.Agree w w') ∨ .evict k.cr3 (pg * pgSize) ∈ k.sinceReload := by
  by_contra hno
  obtain ⟨hag, hev⟩ := not_or.mp hno
  exact (h.steady hroom).tight hrun pg hpg ⟨⟨w, hw, hag⟩, hev⟩

theorem tlb_stale_only_evicted_first : ∃ k : Kernel, k.cur.isSome ∧ ∃ w ∈ k.tlb 0,
    (∃ w', k.entry k.cr3 0 = some w' ∧ Kernel.Agree w w') ∨ .evict k.cr3 (0 * pgSize) ∈ k.sinceReload := by
  obtain ⟨k₀, k, p, w, h⟩ := exists_firstRun
  have hrun : k.cur.isSome := by rw [h.cur]; rfl
  exact ⟨k, hrun, w, h.cached, tlb_stale_only_evicted smallImage_room h.reached hrun (by decide) h.cached⟩

/-! ### Panics -/

/-- What may happen to `va` while its byte stays. -/
def Spares (va : Nat) : Op × Reply → Prop
  | (.store va' _, _) => va' ≠ va
  | (.sbrk n, _) => 0 < n
  | (.exec _ _ _, r) => r = .int (-1)
  | (_, .exited) => False
  | _ => True

namespace Flat
variable {s s' : Flat} {m : Space}

/-- A process that does not run keeps its memory. -/
theorem Step.asleep (h : Step s e s') (hp : s.cur ≠ some p) (hm : s.space p = some m) : s'.space p = some m := by
  have hne {q : Nat} (hq : s.cur = some q) : p ≠ q := fun hpq => hp (hpq ▸ hq)
  cases h with
  | unseen _ => exact hm
  | load _ _ _ => exact hm
  | store hq _ _ => exact (update_of_ne (hne hq) _ _).trans hm
  | killed hq => exact (update_of_ne (hne hq) _ _).trans hm
  | sbrk hq _ _ => exact (update_of_ne (hne hq) _ _).trans hm
  | fork _ _ hi _ =>
    refine (update_of_ne ?_ _ _).trans hm
    rintro rfl
    rw [hm] at hi
    cases hi
  | exec hq _ _ _ => exact (update_of_ne (hne hq) _ _).trans hm
  | exit hq => exact (update_of_ne (hne hq) _ _).trans hm
  | sched => exact hm
  | dispatch _ _ => exact hm

theorem le_target {n : Int} (hn : 0 < n) : m.sz ≤ m.target n := by
  rw [Space.target]
  by_cases hlt : newSize m.sz n < m.sz
  · rw [if_pos (.inl ⟨hn, hlt⟩)]
  · rw [if_neg (by omega)]
    exact Nat.not_lt.mp hlt

/-- The byte at `va` of process `p` is `b`. -/
def Holds (s : Flat) (p va : Nat) (b : BitVec 8) : Prop :=
  ∃ m, s.space p = some m ∧ va / pgSize < pageCount m.sz ∧ m.read va = some b

theorem Step.holds (h : Step s e s') (hsp : s.cur = some p → Spares va e) (hb : s.Holds p va b) :
    s'.Holds p va b := by
  by_cases hp : s.cur = some p
  swap
  · obtain ⟨m, hm, hrest⟩ := hb
    exact ⟨m, h.asleep hp hm, hrest⟩
  obtain ⟨m₀, hm₀, hin, hread⟩ := hb
  have hsp := hsp hp
  cases h with
  | unseen _ => exact ⟨m₀, hm₀, hin, hread⟩
  | load _ _ _ => exact ⟨m₀, hm₀, hin, hread⟩
  | store hq hm _ =>
    obtain rfl := Option.some.inj (hp.symm.trans hq)
    obtain rfl := Option.some.inj (hm₀.symm.trans hm)
    refine ⟨_, update_self _ _ _, hin, ?_⟩
    rw [Space.read_write, if_neg (Ne.symm hsp), hread]
  | killed _ => exact hsp.elim
  | sbrk hq hm hr =>
    obtain rfl := Option.some.inj (hp.symm.trans hq)
    obtain rfl := Option.some.inj (hm₀.symm.trans hm)
    refine ⟨_, update_self _ _ _, ?_⟩
    rcases hr with ⟨-, rfl⟩ | ⟨-, rfl⟩ | ⟨-, hn, -⟩
    · have hin' := Nat.lt_of_lt_of_le hin (pageCount_mono (le_target (m := m₀) hsp))
      refine ⟨hin', ?_⟩
      rw [Space.read, Space.resize]
      dsimp only
      rw [if_pos hin', if_pos hin]
      exact hread
    · exact ⟨hin, hread⟩
    · exact absurd hn (Int.not_lt.mpr (Int.le_of_lt hsp))
  | fork hq hm hi _ =>
    refine ⟨m₀, (update_of_ne ?_ _ _).trans hm₀, hin, hread⟩
    rintro rfl
    rw [hm₀] at hi
    cases hi
  | exec _ _ _ _ => cases hsp
  | exit _ => exact hsp.elim
  | sched => exact ⟨m₀, hm₀, hin, hread⟩
  | dispatch _ _ => exact ⟨m₀, hm₀, hin, hread⟩

theorem Step.stored (h : Step s (.store va b, .done) s') (hp : s.cur = some p) (hm : s.space p = some m)
    (hin : ∀ u, m.page (va / pgSize) = some u → va / pgSize < pageCount m.sz) : s'.Holds p va b := by
  cases h with
  | unseen hu => exact hu.elim
  | store hq hm' hw =>
    obtain rfl := Option.some.inj (hp.symm.trans hq)
    obtain rfl := Option.some.inj (hm.symm.trans hm')
    obtain ⟨u, hu, huser, -⟩ := hw
    refine ⟨_, update_self _ _ _, hin u hu, ?_⟩
    rw [Space.read_write, if_pos rfl, Space.read, hu, Option.bind_some, if_pos huser, Option.map_some]

theorem Step.loaded (h : Step s (.load va, .byte b') s') (hp : s.cur = some p) (hb : s.Holds p va b) : b' = b := by
  obtain ⟨m₀, hm₀, -, hread⟩ := hb
  cases h with
  | unseen hu => exact hu.elim
  | load hq hm hb' =>
    obtain rfl := Option.some.inj (hp.symm.trans hq)
    obtain rfl := Option.some.inj (hm₀.symm.trans hm)
    exact Option.some.inj (hb'.symm.trans hread)

end Flat

end Xv6.Swap
