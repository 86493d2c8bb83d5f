import AdvancedXv6.Swap.Owner
import Mathlib.Data.List.Nodup

/-! Page tables as maps from page numbers to entries: what the stores of `vm.c` and `pageswap.c`
through page-table pointers change, in the entries and in the references. -/

namespace Xv6.Swap
open Function Ownership

variable {im : Image} {k k' : Kernel} {H H' : Held} {d d' va pg pg' f g n i t : Nat} {a : Res}
  {e w : Word} {q : PtePtr} {r : Ref}

/-! ### Walking -/

theorem pdx_div (hva : va < 2 ^ 32) : pdx va = va / pgSize / 1024 := by
  rw [pdx_eq, pgSize]
  omega

theorem ptx_mod (va : Nat) : ptx va = va / pgSize % 1024 := by
  rw [ptx_eq, pgSize]

namespace Kernel

theorem walk_some (h : k.walk d va = some q) :
    Present (k.mem d (pdx va)) ∧ q = ⟨frameOf (k.mem d (pdx va)), ptx va⟩ := by
  by_cases hp : Present (k.mem d (pdx va))
  · rw [walk, if_pos hp] at h
    exact ⟨hp, (Option.some.inj h).symm⟩
  · rw [walk, if_neg hp] at h
    cases h

theorem walk_none : k.walk d va = none ↔ ¬Present (k.mem d (pdx va)) := by
  rw [walk]
  split <;> simp_all

theorem entry_eq_walk (hva : va < 2 ^ 32) : k.entry d (va / pgSize) = (k.walk d va).map k.load := by
  rw [entry, walk, ← pdx_div hva, ← ptx_mod]
  split <;> rfl

theorem walk_page (pg : Nat) (hpg : pg < 2 ^ 20) :
    k.entry d pg = (k.walk d (pg * pgSize)).map k.load := by
  have h : pg * pgSize / pgSize = pg := Nat.mul_div_cancel _ (by decide)
  rw [← entry_eq_walk (by rw [pgSize]; omega), h]

theorem entry_of_walk (hva : va < 2 ^ 32) (hq : k.walk d va = some q) :
    k.entry d (va / pgSize) = some (k.load q) := by
  rw [entry_eq_walk hva, hq, Option.map_some]

theorem resident_iff (hva : va < 2 ^ 32) :
    k.Resident d va ↔ ∃ e, k.entry d (va / pgSize) = some e ∧ Present e := by
  rw [entry_eq_walk hva, Resident]
  simp only [Option.map_eq_some_iff]
  constructor
  · rintro ⟨q, hq, hp⟩
    exact ⟨_, ⟨q, hq, rfl⟩, hp⟩
  · rintro ⟨_, ⟨q, hq, rfl⟩, hp⟩
    exact ⟨q, hq, hp⟩

end Kernel

theorem Accounted.walk_ref (hd : k.Live H d) (hq : k.walk d va = some q) :
    k.Refers H (.tab d (pdx va)) (.frame q.frame) := by
  obtain ⟨hp, rfl⟩ := Kernel.walk_some hq
  exact ⟨hd, pdx_lt va, hp, rfl⟩

theorem Accounted.user_ref (hd : k.Live H d) (hpg : pg < userPages) (he : k.entry d pg = some e)
    (ha : names e = some a) : k.Refers H (.user d pg) a := ⟨hd, hpg, e, he, ha⟩

theorem userPages_of_va (h : va < kernBase) : va < 2 ^ 32 ∧ va / pgSize < userPages := by
  rw [kernBase] at h
  rw [pgSize, userPages]
  omega

/-! ### A store to one entry -/

theorem setPte_mem_of_ne (h : t ≠ q.frame) : (k.setPte d va q w).mem t = k.mem t :=
  update_of_ne h _ _

theorem setPte_mem_live (hk : Accounted im k H) (hd : k.Live H d) (hq : k.walk d va = some q)
    (hd' : k.Live H d') : (k.setPte d va q w).mem d' = k.mem d' := by
  refine setPte_mem_of_ne ?_
  rintro rfl
  exact hk.tab_ne_live (Accounted.walk_ref hd hq) hd'

theorem entry_setPte (hk : Accounted im k H) (hd : k.Live H d) (hq : k.walk d va = some q)
    (hva : va < 2 ^ 32) (hd' : k.Live H d') (hpg' : pg' / 1024 < nPdEntries) :
    (k.setPte d va q w).entry d' pg' =
      if d' = d ∧ pg' = va / pgSize then some w else k.entry d' pg' := by
  obtain ⟨hp, hqe⟩ := Kernel.walk_some hq
  have hm := setPte_mem_live hk hd hq hd' (w := w)
  rw [Kernel.entry, Kernel.entry, hm]
  by_cases hp' : Present (k.mem d' (pg' / 1024))
  · simp only [hp', if_true]
    by_cases ht : frameOf (k.mem d' (pg' / 1024)) = q.frame
    · -- the same table, so the same directory and the same directory entry
      obtain ⟨rfl, hi⟩ := hk.tab_inj (Accounted.walk_ref hd hq) ⟨hd', hpg', hp', by rw [ht]⟩
      rw [ht, Kernel.setPte]
      simp only [update_self]
      by_cases hpg : pg' = va / pgSize
      · have hidx : q.idx = pg' % 1024 := by rw [hqe, hpg, ptx_mod]
        rw [← hidx, update_self, if_pos ⟨trivial, hpg⟩]
      · have hidx : pg' % 1024 ≠ q.idx := by
          rw [hqe]
          show pg' % 1024 ≠ ptx va
          rw [ptx_mod]
          rw [pdx_div hva] at hi
          omega
        rw [update_of_ne hidx, if_neg (fun h => hpg h.2)]
    · rw [setPte_mem_of_ne ht, if_neg]
      rintro ⟨rfl, rfl⟩
      rw [← pdx_div hva] at ht
      exact ht (by rw [hqe])
  · simp only [hp', if_false]
    rw [if_neg]
    rintro ⟨rfl, rfl⟩
    rw [← pdx_div hva] at hp'
    exact hp' hp

theorem dir_setPte {x : Holder} : (k.setPte d va q w).Dir H x d' ↔ k.Dir H x d' := by
  cases x <;> exact Iff.rfl

theorem live_setPte : (k.setPte d va q w).Live H d' ↔ k.Live H d' :=
  exists_congr fun _ => dir_setPte

theorem refers_setPte (hk : Accounted im k H) (hd : k.Live H d) (hq : k.walk d va = some q)
    (hva : va < 2 ^ 32) (hr : r = .user d (va / pgSize) → userPages ≤ va / pgSize) :
    (k.setPte d va q w).Refers H r a ↔ k.Refers H r a := by
  cases r with
  | tab d' i =>
    refine and_congr live_setPte Iff.rfl |>.trans (and_congr_right fun hd' => ?_)
    rw [setPte_mem_live hk hd hq hd']
  | user d' pg' =>
    refine and_congr live_setPte Iff.rfl |>.trans (and_congr_right fun hd' =>
      and_congr_right fun hpg' => ?_)
    rw [entry_setPte hk hd hq hva hd' (userPages_div hpg'), if_neg]
    rintro ⟨rfl, rfl⟩
    exact absurd hpg' (Nat.not_lt.mpr (hr rfl))
  | _ => exact Iff.rfl

theorem refers_setPte_self (hk : Accounted im k H) (hd : k.Live H d) (hq : k.walk d va = some q)
    (hva : va < 2 ^ 32) (hpg : va / pgSize < userPages) :
    (k.setPte d va q w).Refers H (.user d (va / pgSize)) a ↔ names w = some a := by
  have he : (k.setPte d va q w).entry d (va / pgSize) = some w := by
    rw [entry_setPte hk hd hq hva hd (userPages_div hpg), if_pos ⟨rfl, rfl⟩]
  constructor
  · rintro ⟨_, _, e, h, ha⟩
    rw [he] at h
    cases h
    exact ha
  · intro ha
    exact ⟨live_setPte.mpr hd, hpg, w, he, ha⟩

/-- Resources that an entry names, in a local variable. -/
def Held.holds (H : Held) (o : Option Res) : Held := { H with res := o.toList ++ H.res }

@[simp] theorem holds_none : H.holds none = H := rfl

@[simp] theorem holds_some : H.holds (some a) = H.hold a := rfl

/-- A store that changes flags only. -/
theorem Accounted.setFlags (hk : Accounted im k H) (hd : k.Live H d) (hq : k.walk d va = some q)
    (hva : va < 2 ^ 32) (hw : va / pgSize < userPages → names w = names (k.load q)) :
    Accounted im (k.setPte d va q w) H where
  exact := hk.exact.congr fun r a => by
    by_cases hr : r = .user d (va / pgSize) ∧ va / pgSize < userPages
    · obtain ⟨rfl, hpg⟩ := hr
      rw [refers_setPte_self hk hd hq hva hpg, hw hpg]
      constructor
      · intro ha
        exact ⟨hd, hpg, _, Kernel.entry_of_walk hva hq, ha⟩
      · rintro ⟨_, _, e, he, ha⟩
        rw [Kernel.entry_of_walk hva hq] at he
        cases he
        exact ha
    · exact refers_setPte hk hd hq hva fun h => Nat.not_lt.mp fun hpg => hr ⟨h, hpg⟩
  free_nodup := hk.free_nodup
  pipes_nodup := hk.pipes_nodup
  res_nodup := hk.res_nodup
  dirs_nodup := hk.dirs_nodup
  count := hk.count

theorem refers_holds {o : Option Res} (hr : r ≠ .held) :
    k.Refers (H.holds o) r a ↔ k.Refers H r a := by
  cases r with
  | held => contradiction
  | _ => exact Iff.rfl

/-- A store to a user entry: what the new entry names was held by a local variable before, what
the old one named is held by one afterwards. -/
theorem Accounted.setPte (hk : Accounted im k (H.holds (names w))) (hd : k.Live H d)
    (hq : k.walk d va = some q) (hva : va < 2 ^ 32) (hpg : va / pgSize < userPages) :
    Accounted im (k.setPte d va q w) (H.holds (names (k.load q))) := by
  have hload := Kernel.entry_of_walk hva hq
  obtain ⟨hw, hnd, hdisj⟩ := List.nodup_append.mp hk.res_nodup
  have hheld (o : Option Res) (b : Res) (k : Kernel) :
      k.Refers (H.holds o) .held b ↔ o = some b ∨ b ∈ H.res := by
    rw [Kernel.Refers, Held.holds, List.mem_append, Option.mem_toList]
  have hold (b : Res) : k.Refers (H.holds (names w)) (.user d (va / pgSize)) b ↔
      names (k.load q) = some b := by
    constructor
    · rintro ⟨_, _, e, he, hb⟩
      rw [hload] at he
      cases he
      exact hb
    · intro hb
      exact ⟨hd, hpg, _, hload, hb⟩
  refine ⟨hk.exact.exchange (u := .user d (va / pgSize)) (h := .held) (by simp) hold
    (fun b => hheld _ b k) (fun b hb hm => hdisj b (Option.mem_toList.mpr hb) b hm rfl)
    (fun b => ?_) (fun b => hheld _ b _) (fun r b hr hr' => ?_),
    hk.free_nodup, hk.pipes_nodup, ?_, hk.dirs_nodup, hk.count⟩
  · rw [refers_holds (r := .user _ _) (by simp), ← refers_holds (o := names w) (r := .user _ _) (by simp)]
    exact refers_setPte_self hk hd hq hva hpg
  · rw [refers_holds hr', ← refers_holds (o := names w) hr']
    exact refers_setPte hk hd hq hva fun h => absurd h hr
  · refine List.nodup_append.mpr ⟨by cases names (k.load q) <;> simp, hnd, ?_⟩
    rintro b hb c hc rfl
    exact Ref.noConfusion (hk.exact.unique ((hold b).mpr (Option.mem_toList.mp hb))
      ((hheld _ b k).mpr (.inr hc)))

/-! ### A new page table -/

theorem names_zero : names 0 = none := by decide

section SetPde
variable (hk : Accounted im k (H.hold (.frame t))) (hz : k.mem t = fun _ => 0)
  (hd : k.Live H d) (hi : i < nPdEntries) (hnp : ¬Present (k.mem d i)) (hw : Present w)
  (hwt : frameOf w = t)
include hk hd

theorem setPde_held_ne : t ≠ d := by
  rintro rfl
  obtain ⟨x, hx⟩ := hd
  exact Ref.noConfusion (hk.exact.unique (r := .held) (a := .frame t) List.mem_cons_self
    (show k.Refers (H.hold (.frame t)) (.dir x) (.frame t) from ⟨t, hx, rfl⟩))

omit hk in
theorem setPde_mem_live {j : Nat} (hd' : k.Live H d') :
    (k.setPage d (update (k.mem d) i w)).mem d' j = if d' = d ∧ j = i then w else k.mem d' j := by
  have := hd'
  rw [Kernel.setPage]
  by_cases hdd : d' = d
  · subst hdd
    simp only [update_self, true_and]
    by_cases hj : j = i
    · subst hj
      rw [update_self, if_pos rfl]
    · rw [update_of_ne hj, if_neg hj]
  · simp only [hdd, false_and, if_false]
    rw [update_of_ne hdd]

include hz hnp hw hwt

omit hnp in
theorem entry_setPde (hd' : k.Live H d') (hpg' : pg' / 1024 < nPdEntries) :
    (k.setPage d (update (k.mem d) i w)).entry d' pg' =
      if d' = d ∧ pg' / 1024 = i then some 0 else k.entry d' pg' := by
  have htd := setPde_held_ne hk hd
  rw [Kernel.entry, Kernel.entry, setPde_mem_live (i := i) (w := w) hd hd']
  by_cases h : d' = d ∧ pg' / 1024 = i
  · rw [if_pos h, if_pos hw, if_pos h, hwt, setPage_mem_of_ne htd, hz]
  · rw [if_neg h, if_neg h]
    by_cases hp' : Present (k.mem d' (pg' / 1024))
    · have hne : frameOf (k.mem d' (pg' / 1024)) ≠ d := by
        intro e
        exact hk.tab_ne_live (H := H.hold (.frame t)) (d := d') ⟨hd', hpg', hp', rfl⟩ (e ▸ hd)
      rw [if_pos hp', if_pos hp', setPage_mem_of_ne hne]
    · rw [if_neg hp', if_neg hp']

include hi

theorem Accounted.setPde : Accounted im (k.setPage d (update (k.mem d) i w)) H := by
  have hno (pg : Nat) (hpg : pg / 1024 = i) : k.entry d pg = none := by
    rw [Kernel.entry, hpg, if_neg hnp]
  obtain ⟨hex, hres⟩ := hk.drop (k.setPage d (update (k.mem d) i w)) H
    (.tab d i) (by simp) rfl fun r b hr => by
    cases r with
    | held => contradiction
    | tab d' j =>
      by_cases hd' : k.Live H d'
      · have hm := setPde_mem_live (i := i) (w := w) (j := j) hd hd'
        by_cases h : d' = d ∧ j = i
        · obtain ⟨rfl, rfl⟩ := h
          rw [if_pos ⟨rfl, rfl⟩] at hm
          simp only [Kernel.Refers, hm, hwt, hnp, false_and, and_false, or_false, true_and]
          exact ⟨fun h => h.2.2.2, fun h => ⟨hd', hi, hw, h⟩⟩
        · rw [if_neg h] at hm
          simp only [Kernel.Refers, hm, Ref.tab.injEq, h, false_and, false_or]
          exact Iff.rfl
      · have hne : d' ≠ d := fun e => hd' (e ▸ hd)
        simp only [Ref.tab.injEq, hne, false_and, false_or]
        exact ⟨fun h => absurd h.1 hd', fun h => absurd h.1 hd'⟩
    | user d' pg' =>
      simp only [reduceCtorEq, false_and, false_or]
      refine and_congr_right fun hd' => and_congr_right fun hpg' => ?_
      rw [entry_setPde hk hz hd hw hwt hd' (userPages_div hpg')]
      by_cases h : d' = d ∧ pg' / 1024 = i
      · rw [if_pos h, h.1, hno pg' h.2]
        constructor
        · rintro ⟨e, he, ha⟩
          cases he
          rw [names_zero] at ha
          cases ha
        · rintro ⟨e, he, _⟩
          cases he
      · rw [if_neg h]
    | _ => simp only [reduceCtorEq, false_and, false_or]; exact Iff.rfl
  exact ⟨hex, hk.free_nodup, hk.pipes_nodup, hres, hk.dirs_nodup, hk.count⟩

end SetPde

/-! ### Directories that change hands -/

/-- The reference to a directory `d` gets the name that `φ d` gives its holder. -/
def Ref.rename (φ : Nat → Holder → Holder) : Ref → Res → Ref
  | .dir y, .frame d => .dir (φ d y)
  | r, _ => r

/-- The directories are the same, the holders are renamed by `φ`. -/
theorem Accounted.rename (hk : Accounted im k H) (φ : Nat → Holder → Holder)
    (hφ : ∀ x d, k'.Dir H' x d ↔ ∃ y, φ d y = x ∧ k.Dir H y d) (hmem : k'.mem = k.mem)
    (hfree : k'.freelist = k.freelist) (hcount : k'.freePagesCount = k.freePagesCount)
    (hslots : k'.swapSlots = k.swapSlots) (hpipes : k'.pipes = k.pipes)
    (hkstack : ∀ i, (k'.proc i).kstack = (k.proc i).kstack) (hres : H'.res = H.res)
    (hlost : H'.lost = H.lost) (hdirs : H'.dirs.Nodup) : Accounted im k' H' := by
  have hlive (d : Nat) : k'.Live H' d ↔ k.Live H d := by
    simp only [Kernel.Live, hφ]
    constructor
    · rintro ⟨_, y, _, hy⟩
      exact ⟨y, hy⟩
    · rintro ⟨y, hy⟩
      exact ⟨_, y, rfl, hy⟩
  have hentry (d pg : Nat) : k'.entry d pg = k.entry d pg := by rw [Kernel.entry, Kernel.entry, hmem]
  refine ⟨hk.exact.map (fun a r => r.rename φ a) fun r a => ?_, hfree ▸ hk.free_nodup,
    hpipes ▸ hk.pipes_nodup, hres ▸ hk.res_nodup, hdirs, by rw [hcount, hfree, hk.count]⟩
  by_cases hr : ∃ x, r = .dir x
  · obtain ⟨x, rfl⟩ := hr
    constructor
    · rintro ⟨d, hd, rfl⟩
      obtain ⟨y, rfl, hy⟩ := (hφ _ _).mp hd
      exact ⟨.dir y, rfl, d, hy, rfl⟩
    · rintro ⟨r₁, hr₁, h⟩
      cases r₁ with
      | dir y =>
        obtain ⟨d, hd, rfl⟩ := h
        cases hr₁
        exact ⟨d, (hφ _ _).mpr ⟨y, rfl, hd⟩, rfl⟩
      | _ => cases hr₁
  · have hsame : k'.Refers H' r a ↔ k.Refers H r a := by
      cases r with
      | free => cases a <;> simp only [Kernel.Refers, Kernel.Free, hfree, hslots]
      | held => simp only [Kernel.Refers, hres]
      | lost => simp only [Kernel.Refers, hlost]
      | pipe => simp only [Kernel.Refers, hpipes]
      | kstack i => simp only [Kernel.Refers, hkstack]
      | dir x => exact absurd ⟨x, rfl⟩ hr
      | tab d i => simp only [Kernel.Refers, hlive, hmem]
      | user d pg => simp only [Kernel.Refers, hlive, hentry]
    rw [hsame]
    constructor
    · intro h
      refine ⟨r, ?_, h⟩
      cases r with
      | dir x => exact absurd ⟨x, rfl⟩ hr
      | _ => rfl
    · rintro ⟨r₁, hr₁, h⟩
      cases r₁ with
      | dir y =>
        obtain ⟨d, hd, rfl⟩ := h
        exact absurd ⟨φ d y, hr₁.symm⟩ hr
      | _ => exact hr₁ ▸ h

/-- The page tables of a directory, in the order of `freevm`. -/
def Kernel.tabs (k : Kernel) (d : Nat) (is : List Nat) : List Res :=
  (is.filter fun i => Present (k.mem d i)).map fun i => .frame (frameOf (k.mem d i))

theorem mem_tabs {is : List Nat} :
    a ∈ k.tabs d is ↔ ∃ i ∈ is, Present (k.mem d i) ∧ a = .frame (frameOf (k.mem d i)) := by
  rw [Kernel.tabs, List.mem_map]
  simp only [List.mem_filter, decide_eq_true_eq]
  constructor
  · rintro ⟨i, ⟨hi, hp⟩, rfl⟩
    exact ⟨i, hi, hp, rfl⟩
  · rintro ⟨i, hi, hp, rfl⟩
    exact ⟨i, ⟨hi, hp⟩, rfl⟩

/-- The resources of `H`, and in front of them the tables `is` of the directory `d`, and `d`. -/
def Held.wreck (H : Held) (k : Kernel) (d : Nat) (is : List Nat) : Held :=
  { H with res := k.tabs d is ++ .frame d :: H.res }

/-- A local directory without user pages falls apart into pages. -/
theorem Accounted.dismantle (hk : Accounted im k (H.build d))
    (hempty : ∀ pg e, pg < userPages → k.entry d pg = some e → names e = none) :
    Accounted im k (H.wreck k d (List.range nPdEntries)) := by
  rw [Held.wreck]
  have hd : k.Live (H.build d) d := ⟨.held, List.mem_cons_self⟩
  have hdref : k.Refers (H.build d) (.dir .held) (.frame d) := ⟨d, List.mem_cons_self, rfl⟩
  obtain ⟨hdnot, hdirs⟩ := List.nodup_cons.mp hk.dirs_nodup
  have htab {b : Res} : b ∈ k.tabs d (List.range nPdEntries) ↔
      ∃ i, k.Refers (H.build d) (.tab d i) b := by
    rw [mem_tabs]
    simp only [List.mem_range, Kernel.Refers]
    exact exists_congr fun i => (and_iff_right hd).symm
  have hdir (x : Holder) (d' : Nat) : k.Dir H x d' ↔ k.Dir (H.build d) x d' ∧ d' ≠ d := by
    constructor
    · intro hx
      have hx' : k.Dir (H.build d) x d' := by
        cases x with
        | held => exact List.mem_cons_of_mem _ hx
        | _ => exact hx
      refine ⟨hx', ?_⟩
      rintro rfl
      have := hk.exact.unique hdref (show k.Refers (H.build d') (.dir x) _ from ⟨_, hx', rfl⟩)
      cases this
      exact hdnot hx
    · rintro ⟨hx, hne⟩
      cases x with
      | held => exact (List.mem_cons.mp hx).resolve_left hne
      | _ => exact hx
  have hlive (d' : Nat) : k.Live H d' ↔ k.Live (H.build d) d' ∧ d' ≠ d := by
    simp only [Kernel.Live, hdir, exists_and_right]
  have hnodup : (k.tabs d (List.range nPdEntries)).Nodup := by
    refine List.Nodup.map_on ?_ (List.nodup_range.filter _)
    intro i hi j hj e
    simp only [List.mem_filter, List.mem_range, decide_eq_true_eq] at hi hj
    exact (hk.tab_inj (H := H.build d) ⟨hd, hi.1, hi.2, rfl⟩ ⟨hd, hj.1, hj.2, e⟩).2
  generalize k.tabs d (List.range nPdEntries) = l at htab hnodup ⊢
  let S (b : Res) : Prop := b ∈ l ∨ b = .frame d
  have hS {r : Ref} {b : Res} (h : k.Refers (H.build d) r b) (hb : S b) :
      (∃ i, r = .tab d i) ∨ r = .dir .held := by
    rcases hb with hb | rfl
    · obtain ⟨i, hi⟩ := htab.mp hb
      exact .inl ⟨i, hk.exact.unique h hi⟩
    · exact .inr (hk.exact.unique h hdref)
  have hrest {r : Ref} {b : Res} (htab : ∀ i, r ≠ .tab d i) (hdir : r ≠ .dir .held) :
      k.Refers (H.build d) r b ↔ k.Refers (H.build d) r b ∧ ¬S b := by
    refine ⟨fun h => ⟨h, fun hb => ?_⟩, And.left⟩
    rcases hS h hb with ⟨i, hi⟩ | hi
    · exact htab i hi
    · exact hdir hi
  refine ⟨hk.exact.collect (h := .held) (S := S) ?_ (fun b => ?_) fun r b hr => ?_,
    hk.free_nodup, hk.pipes_nodup, ?_, hdirs, hk.count⟩
  · rintro b (hb | rfl)
    · obtain ⟨i, hi⟩ := htab.mp hb
      exact ⟨_, hi⟩
    · exact ⟨_, hdref⟩
  · simp only [Kernel.Refers, Held.build, List.mem_append, List.mem_cons, S, or_assoc]
  · cases r with
    | held => contradiction
    | dir x =>
      constructor
      · rintro ⟨d', hd', rfl⟩
        obtain ⟨hx, hne⟩ := (hdir x d').mp hd'
        refine ⟨⟨d', hx, rfl⟩, ?_⟩
        rintro (hb | hb)
        · obtain ⟨i, hi⟩ := htab.mp hb
          exact hk.tab_ne_live hi ⟨x, hx⟩
        · exact hne (Res.frame.inj hb)
      · rintro ⟨⟨d', hx, rfl⟩, hb⟩
        exact ⟨d', (hdir x d').mpr ⟨hx, fun e => hb (.inr (e ▸ rfl))⟩, rfl⟩
    | tab d' i =>
      constructor
      · rintro ⟨hd', hi, hp, rfl⟩
        obtain ⟨hx, hne⟩ := (hlive d').mp hd'
        have href : k.Refers (H.build d) (.tab d' i) _ := ⟨hx, hi, hp, rfl⟩
        refine ⟨href, fun hb => ?_⟩
        rcases hS href hb with ⟨j, hj⟩ | hj
        · cases hj
          exact hne rfl
        · cases hj
      · rintro ⟨⟨hx, hi, hp, rfl⟩, hb⟩
        refine ⟨(hlive d').mpr ⟨hx, ?_⟩, hi, hp, rfl⟩
        rintro rfl
        exact hb (.inl (htab.mpr ⟨i, hx, hi, hp, rfl⟩))
    | user d' pg =>
      constructor
      · rintro ⟨hd', hpg, e, he, ha⟩
        have href : k.Refers (H.build d) (.user d' pg) b := ⟨((hlive d').mp hd').1, hpg, e, he, ha⟩
        refine ⟨href, fun hb => ?_⟩
        rcases hS href hb with ⟨j, hj⟩ | hj <;> cases hj
      · rintro ⟨⟨hx, hpg, e, he, ha⟩, _⟩
        refine ⟨(hlive d').mpr ⟨hx, ?_⟩, hpg, e, he, ha⟩
        rintro rfl
        rw [hempty pg e hpg he] at ha
        cases ha
    | free => exact hrest (r := .free) (by simp) (by simp)
    | lost => exact hrest (r := .lost) (by simp) (by simp)
    | pipe => exact hrest (r := .pipe) (by simp) (by simp)
    | kstack i => exact hrest (r := .kstack i) (by simp) (by simp)
  · refine List.nodup_append.mpr ⟨hnodup, List.nodup_cons.mpr ⟨fun h => ?_, hk.res_nodup⟩, ?_⟩
    · exact Ref.noConfusion (hk.exact.unique (s := .held) hdref h)
    · rintro b hb c hc rfl
      obtain ⟨i, hi⟩ := htab.mp hb
      rcases List.mem_cons.mp hc with rfl | hc
      · exact Ref.noConfusion (hk.exact.unique hi hdref)
      · exact Ref.noConfusion (hk.exact.unique (s := .held) hi hc)

end Xv6.Swap
