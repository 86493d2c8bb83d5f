import AdvancedXv6.Swap.Boot
import AdvancedXv6.Swap.FreeSpec

/-! `deallocuvm` and `freevm` on any page table whose references are distinct: what is released, and that nothing else
changes. -/

namespace Xv6.Swap
open Function Effect

variable {im : Image} {k k₁ k' : Kernel} {d f i n a b pg lo mid hi oldsz newsz : Nat} {e : Word} {x y : Res} {q : PtePtr}
  {l : List Res}

/-! ### What a page table refers to -/

/-- The directory, its tables, and the pages of the user part. -/
inductive Part
  | dir
  | tab (i : Nat)
  | user (pg : Nat)

namespace Kernel

/-- What the entry of the page names, if there is one. -/
def userRef (k : Kernel) (d pg : Nat) : Option Res := (k.entry d pg).bind names

def part (k : Kernel) (d : Nat) : Part → Option Res
  | .dir => some (.frame d)
  | .tab i => if i < nPdEntries ∧ Present (k.mem d i) then some (.frame (frameOf (k.mem d i))) else none
  | .user pg => if pg < userPages then k.userRef d pg else none

/-- What the pages from `lo` up to `hi` name, in their order. -/
def refs (k : Kernel) (d lo hi : Nat) : List Res := (List.range' lo (hi - lo)).filterMap (k.userRef d)

/-- What releasing does not touch. -/
def apart (k : Kernel) : Kernel :=
  { k with mem := fun _ _ => 0, freelist := [], freePagesCount := 0, swapSlots := fun _ => ⟨0, true⟩ }

end Kernel

/-- The frames of the list. -/
def framesOf (l : List Res) : List Nat := l.filterMap fun
  | .frame f => some f
  | .slot _ => none

/-- All references of the page table are distinct, and to pages and slots that there are. -/
structure PageTable (im : Image) (k : Kernel) (d : Nat) : Prop where
  distinct : ∀ p p' x, k.part d p = some x → k.part d p' = some x → p = p'
  stock : ∀ p x, k.part d p = some x → im.Stock x

/-- The entry of a page after the pages from `lo` up to `hi` have been released. -/
def wiped (lo hi pg : Nat) (e : Word) : Word := if lo ≤ pg ∧ pg < hi ∧ names e ≠ none then 0 else e

/-- Between the two states the references of the pages from `lo` up to `hi` have been released: each frame has come to
the free list once, each slot is free, the entries are cleared. -/
structure Drops (k : Kernel) (d lo hi : Nat) (k' : Kernel) : Prop where
  freelist : k'.freelist = (framesOf (k.refs d lo hi)).reverse ++ k.freelist
  count : k'.freePagesCount = k.freePagesCount + (framesOf (k.refs d lo hi)).length
  slots : ∀ n, k'.swapSlots n = if Res.slot n ∈ k.refs d lo hi then ⟨0, true⟩ else k.swapSlots n
  dir : k'.mem d = k.mem d
  entries : ∀ pg, pg < tablePages → k'.entry d pg = (k.entry d pg).map (wiped lo hi pg)
  frames : ∀ f, Res.frame f ∉ k.refs d lo hi → (∀ i, k.part d (.tab i) ≠ some (.frame f)) → k'.mem f = k.mem f
  apart : k'.apart = k.apart

theorem mem_refs : x ∈ k.refs d lo hi ↔ ∃ pg, lo ≤ pg ∧ pg < hi ∧ k.userRef d pg = some x := by
  rw [Kernel.refs, List.mem_filterMap]
  refine exists_congr fun pg => ?_
  rw [List.mem_range'_1, ← and_assoc]
  exact and_congr_left fun _ => and_congr_right fun _ => by omega

theorem refs_append (h : lo ≤ mid) (h' : mid ≤ hi) : k.refs d lo hi = k.refs d lo mid ++ k.refs d mid hi := by
  have hrange : List.range' lo (hi - lo) = List.range' lo (mid - lo) ++ List.range' mid (hi - mid) := by
    have hsum := List.range'_append_1 (s := lo) (m := mid - lo) (n := hi - mid)
    rw [show lo + (mid - lo) = mid by omega, show mid - lo + (hi - mid) = hi - lo by omega] at hsum
    exact hsum.symm
  rw [Kernel.refs, hrange, List.filterMap_append]
  rfl

theorem refs_nil (h : ∀ pg, lo ≤ pg → pg < hi → k.userRef d pg = none) : k.refs d lo hi = [] := by
  refine List.eq_nil_iff_forall_not_mem.mpr fun x hx => ?_
  obtain ⟨pg, hlo, hhi, hp⟩ := mem_refs.mp hx
  exact Option.some_ne_none x (hp.symm.trans (h pg hlo hhi))

theorem refs_one : k.refs d pg (pg + 1) = (k.userRef d pg).toList := by
  rw [Kernel.refs, Nat.add_sub_cancel_left]
  change List.filterMap (k.userRef d) [pg] = _
  cases hr : k.userRef d pg with
  | none => rw [List.filterMap_cons_none hr]; rfl
  | some x => rw [List.filterMap_cons_some hr]; rfl

theorem userRef_eq_none_of (h : ∀ e, k.entry d pg = some e → names e = none) : k.userRef d pg = none := by
  rw [Kernel.userRef]
  cases he : k.entry d pg with
  | none => rfl
  | some e => exact h e he

theorem part_user (h : pg < userPages) : k.part d (.user pg) = k.userRef d pg := if_pos h

theorem part_tab (hi : i < nPdEntries) (hp : Present (k.mem d i)) :
    k.part d (.tab i) = some (.frame (frameOf (k.mem d i))) := if_pos ⟨hi, hp⟩

theorem part_tab_some (h : k.part d (.tab i) = some x) :
    i < nPdEntries ∧ Present (k.mem d i) ∧ x = .frame (frameOf (k.mem d i)) := by
  by_cases hand : i < nPdEntries ∧ Present (k.mem d i)
  · rw [Kernel.part, if_pos hand] at h
    exact ⟨hand.1, hand.2, (Option.some.inj h).symm⟩
  · rw [Kernel.part, if_neg hand] at h
    exact absurd h (Option.some_ne_none x).symm

theorem part_tab_congr (h : k'.mem d = k.mem d) : k'.part d (.tab i) = k.part d (.tab i) := by
  rw [Kernel.part, Kernel.part, h]

theorem PageTable.refs_nodup (hP : PageTable im k d) (hhi : hi ≤ userPages) : (k.refs d lo hi).Nodup := by
  have hpart : k.refs d lo hi = (List.range' lo (hi - lo)).filterMap fun pg => k.part d (.user pg) :=
    List.filterMap_congr fun pg hpg => (part_user (by
      rw [List.mem_range'_1] at hpg
      omega)).symm
  rw [hpart]
  refine List.Nodup.filterMap (fun pg pg' x hx hx' => ?_) (List.nodup_range' ..)
  cases hP.distinct (.user pg) (.user pg') x hx hx'
  rfl

/-! ### Steps -/

theorem wiped_wiped (h : lo ≤ mid) (h' : mid ≤ hi) : wiped mid hi pg (wiped lo mid pg e) = wiped lo hi pg e := by
  unfold wiped
  by_cases hn : names e = none
  · simp only [hn, ne_eq, not_true_eq_false, and_false, if_false]
  · by_cases hlow : lo ≤ pg ∧ pg < mid
    · rw [if_pos (c := lo ≤ pg ∧ pg < mid ∧ _) ⟨hlow.1, hlow.2, hn⟩,
        if_pos (c := lo ≤ pg ∧ pg < hi ∧ _) ⟨hlow.1, by omega, hn⟩, ite_self]
    · rw [if_neg (c := lo ≤ pg ∧ pg < mid ∧ _) fun hand => hlow ⟨hand.1, hand.2.1⟩]
      refine if_congr ⟨fun hand => ⟨by omega, hand.2⟩, fun hand => ⟨by omega, hand.2⟩⟩ rfl rfl

theorem wiped_of_out (h : ¬(lo ≤ pg ∧ pg < hi)) : wiped lo hi pg e = e := if_neg fun hand => h ⟨hand.1, hand.2.1⟩

theorem Drops.refl (h : ∀ pg, lo ≤ pg → pg < hi → k.userRef d pg = none) : Drops k d lo hi k where
  freelist := by rw [refs_nil h]; rfl
  count := by rw [refs_nil h]; exact (Int.add_zero _).symm
  slots n := by rw [refs_nil h, if_neg List.not_mem_nil]
  dir := rfl
  entries pg _ := by
    cases he : k.entry d pg with
    | none => rfl
    | some e =>
      rw [Option.map_some]
      refine congrArg some (if_neg fun hand => hand.2.2 ?_).symm
      have hnone := h pg hand.1 hand.2.1
      rwa [Kernel.userRef, he] at hnone
  frames _ _ _ := rfl
  apart := rfl

/-- The references of other pages stay. -/
theorem Drops.userRef (h : Drops k d lo hi k') (hpg : pg < tablePages) (hout : ¬(lo ≤ pg ∧ pg < hi)) :
    k'.userRef d pg = k.userRef d pg := by
  rw [Kernel.userRef, Kernel.userRef, h.entries pg hpg]
  cases k.entry d pg with
  | none => rfl
  | some e => rw [Option.map_some, wiped_of_out hout]

theorem Drops.part (h : Drops k d lo hi k') {p : Part} (hp : k'.part d p = some x) : k.part d p = some x := by
  cases p with
  | dir => exact hp
  | tab i => rwa [part_tab_congr h.dir] at hp
  | user pg =>
    by_cases hpg : pg < userPages
    · rw [part_user hpg] at hp ⊢
      rw [Kernel.userRef, h.entries pg (lt_tablePages hpg)] at hp
      rw [Kernel.userRef]
      cases he : k.entry d pg with
      | none =>
        rw [he] at hp
        exact hp
      | some e =>
        rw [he, Option.map_some, Option.bind_some, wiped] at hp
        split at hp
        · rw [names_zero] at hp
          exact absurd hp (Option.some_ne_none x).symm
        · exact hp
    · rw [Kernel.part, if_neg hpg] at hp
      exact absurd hp (Option.some_ne_none x).symm

theorem PageTable.drops (hP : PageTable im k d) (h : Drops k d lo hi k') : PageTable im k' d :=
  ⟨fun p p' x hp hp' => hP.distinct p p' x (h.part hp) (h.part hp'), fun p x hp => hP.stock p x (h.part hp)⟩

theorem framesOf_append {l l' : List Res} : framesOf (l ++ l') = framesOf l ++ framesOf l' := List.filterMap_append ..

theorem Drops.trans (h : Drops k d lo mid k₁) (h' : Drops k₁ d mid hi k') (hle : lo ≤ mid) (hle' : mid ≤ hi)
    (hhi : hi ≤ userPages) : Drops k d lo hi k' := by
  have hrefs : k₁.refs d mid hi = k.refs d mid hi := by
    refine List.filterMap_congr fun pg hpg => ?_
    rw [List.mem_range'_1] at hpg
    exact h.userRef (lt_tablePages (by omega)) (by omega)
  have happ : k.refs d lo hi = k.refs d lo mid ++ k.refs d mid hi := refs_append hle hle'
  refine ⟨?_, ?_, fun n => ?_, h'.dir.trans h.dir, fun pg hpg => ?_, fun f hf hn => ?_, h'.apart.trans h.apart⟩
  · rw [h'.freelist, h.freelist, hrefs, happ, framesOf_append, List.reverse_append, List.append_assoc]
  · rw [h'.count, h.count, hrefs, happ, framesOf_append, List.length_append]
    push_cast
    omega
  · rw [h'.slots, h.slots, hrefs, happ]
    by_cases hlow : Res.slot n ∈ k.refs d lo mid
    · rw [if_pos hlow, ite_self, if_pos (List.mem_append_left _ hlow)]
    · rw [if_neg hlow]
      refine if_congr ⟨fun hm => List.mem_append_right _ hm, fun hm => ?_⟩ rfl rfl
      exact (List.mem_append.mp hm).resolve_left hlow
  · rw [h'.entries pg hpg, h.entries pg hpg, Option.map_map]
    exact congrArg (fun g => Option.map g (k.entry d pg)) (funext fun e => wiped_wiped hle hle')
  · rw [happ, List.mem_append, not_or] at hf
    rw [h'.frames f (hrefs ▸ hf.2) fun i => by rw [part_tab_congr h.dir]; exact hn i]
    exact h.frames f hf.1 hn

/-- Pages without references in front of the range. -/
theorem Drops.extend (h : ∀ pg, lo ≤ pg → pg < mid → k.userRef d pg = none) (hle : lo ≤ mid) (hhi : hi ≤ userPages)
    (hD : Drops k d mid hi k') : Drops k d lo hi k' := by
  rcases Nat.le_total mid hi with hle' | hle'
  · exact (Drops.refl h).trans hD hle hle' hhi
  · -- nothing is left of the range
    have hnone : ∀ pg, lo ≤ pg → pg < hi → k.userRef d pg = none := fun pg h₁ h₂ => h pg h₁ (by omega)
    have hrefs : k.refs d lo hi = k.refs d mid hi := by
      rw [refs_nil hnone, refs_nil fun pg h₁ h₂ => absurd h₂ (by omega)]
    have hbase := Drops.refl hnone
    refine ⟨hrefs ▸ hD.freelist, hrefs ▸ hD.count, hrefs ▸ hD.slots, hD.dir, fun pg hpg => ?_, hrefs ▸ hD.frames,
      hD.apart⟩
    rw [hD.entries pg hpg, ← hbase.entries pg hpg]
    cases k.entry d pg with
    | none => rfl
    | some e => rw [Option.map_some, wiped_of_out (by omega)]

/-! ### One page -/

theorem part_walk (hq : k.walk d a = some q) : k.part d (.tab (pdx a)) = some (.frame q.frame) := by
  obtain ⟨hp, rfl⟩ := Kernel.walk_some hq
  exact part_tab (pdx_lt a) hp

theorem part_page (ha : a < kernBase) (hq : k.walk d a = some q) :
    k.part d (.user (a / pgSize)) = names (k.load q) := by
  rw [part_user (userPages_of_va ha).2, Kernel.userRef, Kernel.entry_of_walk (userPages_of_va ha).1 hq, Option.bind_some]

theorem apart_setPte {w : Word} (hw : ¬Present w) : (k.setPte d a q w).apart = k.apart := by
  rw [Kernel.setPte, if_neg fun hand => hw hand.2]
  rfl

section Page
variable (hP : PageTable im k d) (ha : a < kernBase) (hq : k.walk d a = some q)
include hP ha hq

/-- The page is released: `k₁` is the state with the entry cleared, and the memory of `f` is not part of the table. -/
theorem PageTable.drop {x : Res} (hx : names (k.load q) = some x)
    (hlist : k₁.freelist = (framesOf [x]).reverse ++ k.freelist)
    (hcount : k₁.freePagesCount = k.freePagesCount + (framesOf [x]).length)
    (hslots : ∀ n, k₁.swapSlots n = if Res.slot n = x then ⟨0, true⟩ else k.swapSlots n)
    (hmem : ∀ f, Res.frame f ≠ x → k₁.mem f = if f = q.frame then update (k.mem f) q.idx 0 else k.mem f)
    (hapart : k₁.apart = k.apart) : Drops k d (a / pgSize) (a / pgSize + 1) k₁ := by
  have hpart := part_page ha hq
  rw [hx] at hpart
  have hrefs : k.refs d (a / pgSize) (a / pgSize + 1) = [x] := by
    rw [refs_one, ← part_user (userPages_of_va ha).2, hpart]
    rfl
  have htab := part_walk hq
  obtain ⟨hpres, hq'⟩ := Kernel.walk_some hq
  have hdx : Res.frame d ≠ x := fun heq => by cases hP.distinct .dir (.user (a / pgSize)) x (heq ▸ rfl) hpart
  have hdq : d ≠ q.frame := fun heq => by cases hP.distinct .dir (.tab (pdx a)) (.frame d) rfl (heq ▸ htab)
  have hdir : k₁.mem d = k.mem d := by rw [hmem d hdx, if_neg hdq]
  refine ⟨hrefs ▸ hlist, hrefs ▸ hcount, fun n => ?_, hdir, fun pg hpg => ?_, fun f hf hn => ?_, hapart⟩
  · rw [hrefs, hslots]
    exact if_congr List.mem_singleton.symm rfl rfl
  · rw [Kernel.entry, Kernel.entry, hdir]
    by_cases hp : Present (k.mem d (pg / 1024))
    · have htab' := part_tab (tablePages_div.mp hpg) hp
      have hne : Res.frame (frameOf (k.mem d (pg / 1024))) ≠ x := fun heq => by
        cases hP.distinct (.tab (pg / 1024)) (.user (a / pgSize)) x (heq ▸ htab') hpart
      rw [if_pos hp, if_pos hp, Option.map_some, hmem _ hne]
      refine congrArg some ?_
      by_cases hsame : pg / 1024 = pdx a
      · have hframe : frameOf (k.mem d (pg / 1024)) = q.frame := by rw [hq', hsame]
        rw [if_pos hframe, wiped]
        by_cases hidx : pg % 1024 = q.idx
        · have hpage : pg = a / pgSize := by
            rw [hq'] at hidx
            change pg % 1024 = ptx a at hidx
            rw [ptx_mod] at hidx
            rw [pdx_div (userPages_of_va ha).1] at hsame
            omega
          have hnames : names (k.mem (frameOf (k.mem d (pg / 1024))) q.idx) ≠ none := by
            rw [hframe]
            exact fun hnone => Option.some_ne_none x (hx.symm.trans hnone)
          rw [hidx, update_self, if_pos ⟨hpage.ge, by omega, hnames⟩]
        · rw [update_of_ne hidx]
          refine (if_neg fun hand => hidx ?_).symm
          rw [hq', show pg = a / pgSize by omega]
          exact (ptx_mod a).symm
      · have hframe : frameOf (k.mem d (pg / 1024)) ≠ q.frame := fun heq => hsame
          (Part.tab.inj (hP.distinct (.tab (pg / 1024)) (.tab (pdx a)) _ htab' (heq ▸ htab)))
        rw [if_neg hframe, wiped_of_out]
        rw [pdx_div (userPages_of_va ha).1] at hsame
        rintro ⟨h₁, h₂⟩
        exact hsame (by rw [show pg = a / pgSize by omega])
    · rw [if_neg hp, if_neg hp]
      rfl
  · rw [hrefs, List.mem_singleton] at hf
    have hne : f ≠ q.frame := fun heq => hn (pdx a) (heq ▸ htab)
    rw [hmem f hf, if_neg hne]

theorem PageTable.dropPresent (hp : Present (k.load q)) :
    Drops k d (a / pgSize) (a / pgSize + 1) ((k.freed (frameOf (k.load q))).setPte d a q 0) := by
  refine hP.drop ha hq (names_present hp) rfl rfl (fun n => (if_neg fun heq => ?_).symm) (fun f hf => ?_) ?_
  · cases heq
  · have hne : f ≠ frameOf (k.load q) := fun heq => hf (congrArg Res.frame heq)
    have htab := part_walk hq
    have hpage := part_page ha hq
    rw [names_present hp] at hpage
    have hqf : q.frame ≠ frameOf (k.load q) := fun heq => by
      cases hP.distinct (.tab (pdx a)) (.user (a / pgSize)) _ htab (heq ▸ hpage)
    change update (update k.mem (frameOf (k.load q)) (junkPage k.freelist)) q.frame
      (update ((update k.mem (frameOf (k.load q)) (junkPage k.freelist)) q.frame) q.idx 0) f = _
    by_cases hfq : f = q.frame
    · subst hfq
      rw [update_self, if_pos rfl, update_of_ne hqf]
    · rw [update_of_ne hfq, if_neg hfq, update_of_ne hne]
  · exact (apart_setPte (k := k.freed (frameOf (k.load q))) not_present_zero).trans rfl

theorem PageTable.dropSwapped (hp : ¬Present (k.load q)) (hs : Swapped (k.load q)) :
    Drops k d (a / pgSize) (a / pgSize + 1) ((k.released (slotOf (k.load q))).setPte d a q 0) := by
  refine hP.drop ha hq (names_swapped hp hs) rfl (Int.add_zero _).symm (fun n => ?_) (fun f _ => ?_) ?_
  · change update k.swapSlots (slotOf (k.load q)) ⟨0, true⟩ n = _
    by_cases hn : n = slotOf (k.load q)
    · rw [hn, update_self, if_pos rfl]
    · rw [update_of_ne hn, if_neg fun heq => hn (Res.slot.inj heq)]
  · change update k.mem q.frame (update (k.mem q.frame) q.idx 0) f = _
    by_cases hfq : f = q.frame
    · subst hfq
      rw [update_self, if_pos rfl]
    · rw [update_of_ne hfq, if_neg hfq]
  · exact (apart_setPte (k := k.released (slotOf (k.load q))) not_present_zero).trans rfl

end Page

/-! ### A range of pages -/

theorem Drops.unlocked (h : Drops k d lo hi k') (hl : k.kmemLocked = false) : k'.kmemLocked = false :=
  (congrArg Kernel.kmemLocked h.apart).trans hl

/-- The jump over an absent table ends at the first page behind it. -/
theorem userRef_absent (ha : a < kernBase) (hq : k.walk d a = none) (hlo : a / pgSize ≤ pg)
    (hhi : pg < (a / pgSize / 1024 + 1) * 1024) : k.userRef d pg = none := by
  have hsame : pg / 1024 = pdx a := by
    rw [pdx_div (userPages_of_va ha).1]
    omega
  rw [Kernel.userRef, Kernel.entry, hsame, if_neg (Kernel.walk_none.mp hq)]
  rfl

theorem deallocLoop_drops {E : Panic → Kernel → Prop} (hP : PageTable im k d) (hl : k.kmemLocked = false)
    (hold : oldsz ≤ kernBase) (haln : a % pgSize = 0) (hn : pageCount oldsz ≤ a / pgSize + n) :
    wp (deallocLoop im d oldsz n a) k (fun _ k' => Drops k d (a / pgSize) (pageCount oldsz) k') E := by
  have hmul : a / pgSize * pgSize = a := Nat.div_mul_cancel (Nat.dvd_of_mod_eq_zero haln)
  have hcount : pageCount oldsz ≤ userPages := pageCount_le hold
  induction n generalizing k a with
  | zero =>
    rw [deallocLoop, wp_pure]
    exact .refl fun pg h₁ h₂ => absurd h₂ (by omega)
  | succ n ih =>
    rw [deallocLoop]
    by_cases hlt : a < oldsz
    · rw [if_pos hlt, wp_bind, wp_get]
      have ha : a < kernBase := Nat.lt_of_lt_of_le hlt hold
      have hpg : a / pgSize < pageCount oldsz := lt_pageCount.mpr (by rw [hmul]; exact hlt)
      have hdiv : (a + pgSize) / pgSize = a / pgSize + 1 := Nat.add_div_right a (by decide)
      -- the rest of the loop, after this page
      have hrest {k₁ : Kernel} (h₁ : Drops k d (a / pgSize) (a / pgSize + 1) k₁) :
          wp (deallocLoop im d oldsz n (a + pgSize)) k₁
            (fun _ k' => Drops k d (a / pgSize) (pageCount oldsz) k') E := by
        refine wp_mono (ih (hP.drops h₁) (h₁.unlocked hl) (by rw [Nat.add_mod_right]; exact haln) (by omega) ?_)
          (fun _ k' hpost => ?_) fun _ _ he => he
        · rw [hdiv, Nat.add_mul, hmul, Nat.one_mul]
        · rw [hdiv] at hpost
          exact h₁.trans hpost (Nat.le_succ _) hpg hcount
      cases hq : k.walk d a with
      | none =>
        obtain ⟨hnext, haln'⟩ := pgAddr_next ha
        refine wp_mono (ih hP hl haln' (by rw [hnext]; omega) (Nat.div_mul_cancel (Nat.dvd_of_mod_eq_zero haln')))
          (fun _ k' hpost => ?_) fun _ _ he => he
        rw [hnext] at hpost
        exact hpost.extend (fun pg => userRef_absent ha hq) (by omega) hcount
      | some q =>
        dsimp only
        by_cases hp : Present (k.load q)
        · have hvalid : im.Valid (frameOf (k.load q)) :=
            hP.stock (.user (a / pgSize)) (.frame (frameOf (k.load q))) ((part_page ha hq).trans (names_present hp))
          have hzero : frameOf (k.load q) ≠ 0 := fun heq => by
            have hlow := hvalid.1
            have hend := im.data_lt_kend
            omega
          rw [if_pos hp, if_neg hzero, wp_bind, wp_kfree hvalid hl, wp_bind, wp_modify]
          exact hrest (hP.dropPresent ha hq hp)
        · rw [if_neg hp]
          by_cases hs : Swapped (k.load q)
          · rw [if_pos hs, freeSwapSlot, wp_bind, wp_modify, wp_bind, wp_modify]
            exact hrest (hP.dropSwapped ha hq hp hs)
          · rw [if_neg hs]
            refine hrest (.refl fun pg h₁ h₂ => ?_)
            rw [show pg = a / pgSize by omega, ← part_user (userPages_of_va ha).2, part_page ha hq]
            exact names_none hp hs
    · rw [if_neg hlt, wp_pure]
      refine .refl fun pg hlo hhi => ?_
      have hlow := lt_pageCount.mp hhi
      rw [pgSize] at *
      omega

/-- More turns than there are pages change nothing. -/
theorem deallocLoop_more (hold : oldsz ≤ kernBase) (haln : a % pgSize = 0) (hn : pageCount oldsz ≤ a / pgSize + n) (m : Nat) :
    deallocLoop im d oldsz (n + m) a = deallocLoop im d oldsz n a := by
  induction n generalizing a with
  | zero =>
    have hend : ¬a < oldsz := fun hlt => by
      have hpg : a / pgSize < pageCount oldsz :=
        lt_pageCount.mpr (by rwa [Nat.div_mul_cancel (Nat.dvd_of_mod_eq_zero haln)])
      omega
    rw [Nat.zero_add, deallocLoop.eq_1]
    cases m with
    | zero => rfl
    | succ m => rw [deallocLoop, if_neg hend]
  | succ n ih =>
    rw [Nat.succ_add, deallocLoop, deallocLoop]
    by_cases hlt : a < oldsz
    · rw [if_pos hlt, if_pos hlt]
      obtain ⟨hnext, haln'⟩ := pgAddr_next (Nat.lt_of_lt_of_le hlt hold)
      have hdiv : (a + pgSize) / pgSize = a / pgSize + 1 := Nat.add_div_right a (by decide)
      rw [ih haln' (by rw [hnext]; omega), ih (by rw [Nat.add_mod_right]; exact haln) (by omega)]
    · rw [if_neg hlt, if_neg hlt]

theorem deallocuvm_drops {E : Panic → Kernel → Prop} (hP : PageTable im k d) (hl : k.kmemLocked = false)
    (hold : oldsz ≤ kernBase) (hnew : newsz ≤ oldsz) : wp (deallocuvm im d oldsz newsz) k
      (fun r k' => r = newsz ∧ Drops k d (pageCount newsz) (pageCount oldsz) k') E := by
  rw [deallocuvm]
  split
  · next hle =>
    rw [wp_pure]
    obtain rfl := Nat.le_antisymm hnew hle
    exact ⟨rfl, .refl fun pg h₁ h₂ => absurd h₂ (by omega)⟩
  · have hup : pgRoundUp newsz = pageCount newsz * pgSize := pgRoundUp_eq (by omega)
    have hdiv : pgRoundUp newsz / pgSize = pageCount newsz := by
      rw [hup]
      exact Nat.mul_div_cancel _ (by decide)
    rw [wp_bind]
    refine wp_mono (deallocLoop_drops hP hl hold (by rw [hup]; exact Nat.mul_mod_left _ _) (by omega))
      (fun _ k' hpost => ?_) fun _ _ he => he
    rw [hdiv] at hpost
    rw [wp_pure]
    exact ⟨rfl, hpost⟩

/-! ### A whole address space -/

/-- Between the two states the whole page table has been released: each page, each table and the directory once. -/
structure Freed (k : Kernel) (d : Nat) (k' : Kernel) : Prop where
  freelist : k'.freelist = (framesOf (k.refs d 0 userPages ++ k.tabs d (List.range nPdEntries) ++ [Res.frame d])).reverse ++
    k.freelist
  count : k'.freePagesCount = k.freePagesCount +
    (framesOf (k.refs d 0 userPages ++ k.tabs d (List.range nPdEntries) ++ [Res.frame d])).length
  slots : ∀ n, k'.swapSlots n = if Res.slot n ∈ k.refs d 0 userPages then ⟨0, true⟩ else k.swapSlots n
  frames : ∀ f, (∀ p, k.part d p ≠ some (.frame f)) → k'.mem f = k.mem f
  apart : k'.apart = k.apart

/-- The frames of the list have been put on the free list, the first one first. -/
structure Puts (k : Kernel) (l : List Res) (k' : Kernel) : Prop where
  freelist : k'.freelist = (framesOf l).reverse ++ k.freelist
  count : k'.freePagesCount = k.freePagesCount + (framesOf l).length
  slots : k'.swapSlots = k.swapSlots
  frames : ∀ f, Res.frame f ∉ l → k'.mem f = k.mem f
  apart : k'.apart = k.apart

theorem Puts.nil : Puts k [] k := ⟨rfl, (Int.add_zero _).symm, rfl, fun _ _ => rfl, rfl⟩

theorem Puts.cons (h : Puts (k.freed f) l k') : Puts k (.frame f :: l) k' where
  freelist := by
    rw [h.freelist]
    change _ ++ f :: k.freelist = (f :: framesOf l).reverse ++ k.freelist
    rw [List.reverse_cons, List.append_assoc]
    rfl
  count := by
    rw [h.count]
    change k.freePagesCount + 1 + _ = k.freePagesCount + ((f :: framesOf l).length : Int)
    rw [List.length_cons]
    push_cast
    omega
  slots := h.slots
  frames g hg := by
    rw [List.mem_cons, not_or] at hg
    rw [h.frames g hg.2]
    exact update_of_ne (fun heq => hg.1 (congrArg Res.frame heq)) _ _
  apart := h.apart

theorem freeTables_puts {E : Panic → Kernel → Prop} (is : List Nat) (hl : k.kmemLocked = false)
    (hv : ∀ i ∈ is, Present (k.mem d i) → im.Valid (frameOf (k.mem d i)) ∧ frameOf (k.mem d i) ≠ d) :
    wp (freeTables im d is) k (fun _ k' => Puts k (k.tabs d is) k') E := by
  induction is generalizing k with
  | nil =>
    rw [freeTables, wp_pure]
    exact .nil
  | cons i is ih =>
    rw [freeTables, wp_bind, wp_get]
    by_cases hp : Present (k.mem d i)
    · obtain ⟨hvalid, hne⟩ := hv i List.mem_cons_self hp
      have hmem : (k.freed (frameOf (k.mem d i))).mem d = k.mem d := update_of_ne hne.symm _ _
      rw [if_pos hp, wp_bind, wp_kfree hvalid hl, tabs_cons_of_pos hp]
      refine wp_mono (ih (k := k.freed (frameOf (k.mem d i))) hl ?_) (fun _ k' hpost => ?_) fun _ _ he => he
      · rw [hmem]
        exact fun j hj => hv j (List.mem_cons_of_mem _ hj)
      · rw [tabs_congr hmem] at hpost
        exact hpost.cons
    · rw [if_neg hp, tabs_cons_of_neg hp]
      exact ih hl fun j hj => hv j (List.mem_cons_of_mem _ hj)

theorem freevm_freed {E : Panic → Kernel → Prop} (hP : PageTable im k d) (hl : k.kmemLocked = false) :
    wp (freevm im d) k (fun _ k' => Freed k d k') E := by
  have hvalid : im.Valid d := hP.stock .dir (.frame d) rfl
  rw [freevm, if_neg hvalid.ne_null]
  dsimp only
  rw [wp_bind]
  refine wp_mono (deallocuvm_drops hP hl (Nat.le_refl _) (Nat.zero_le _)) (fun _ k₁ hpost => ?_) fun _ _ he => he
  obtain ⟨-, h₁⟩ := hpost
  rw [pageCount_zero, pageCount_kernBase] at h₁
  have hl₁ := h₁.unlocked hl
  have hP₁ := hP.drops h₁
  rw [wp_bind]
  refine wp_mono (freeTables_puts (List.range nPdEntries) hl₁ fun i hi hp => ?_) (fun _ k₂ h₂ => ?_) fun _ _ he => he
  · have htab := part_tab (List.mem_range.mp hi) hp
    refine ⟨hP₁.stock _ _ htab, fun heq => ?_⟩
    cases hP₁.distinct .dir (.tab i) _ rfl (htab.trans (congrArg (fun f => some (Res.frame f)) heq))
  · rw [tabs_congr h₁.dir] at h₂
    have hl₂ : k₂.kmemLocked = false := (congrArg Kernel.kmemLocked h₂.apart).trans hl₁
    rw [wp_kfree hvalid hl₂]
    have hput : Puts k₂ [Res.frame d] (k₂.freed d) := Puts.nil.cons
    refine ⟨?_, ?_, fun n => ?_, fun f hf => ?_, hput.apart.trans (h₂.apart.trans h₁.apart)⟩
    · rw [hput.freelist, h₂.freelist, h₁.freelist, framesOf_append, framesOf_append, List.reverse_append,
        List.reverse_append, List.append_assoc, List.append_assoc]
    · rw [hput.count, h₂.count, h₁.count, framesOf_append, framesOf_append, List.length_append, List.length_append]
      push_cast
      omega
    · rw [hput.slots, h₂.slots]
      exact h₁.slots n
    · have hd : Res.frame f ∉ [Res.frame d] := fun hm => hf .dir (congrArg some (List.mem_singleton.mp hm).symm)
      have htabs : Res.frame f ∉ k.tabs d (List.range nPdEntries) := fun hm => by
        obtain ⟨i, hi, hp, heq⟩ := mem_tabs.mp hm
        exact hf (.tab i) ((part_tab (List.mem_range.mp hi) hp).trans (congrArg some heq.symm))
      have hpages : Res.frame f ∉ k.refs d 0 userPages := fun hm => by
        obtain ⟨pg, -, hpg, href⟩ := mem_refs.mp hm
        exact hf (.user pg) ((part_user hpg).trans href)
      rw [hput.frames f hd, h₂.frames f htabs]
      exact h₁.frames f hpages fun i => hf (.tab i)

/-- The list of what `freevm` releases has nothing twice. -/
theorem PageTable.nodup (hP : PageTable im k d) :
    (k.refs d 0 userPages ++ k.tabs d (List.range nPdEntries) ++ [Res.frame d]).Nodup := by
  have htab {x : Res} (hx : x ∈ k.tabs d (List.range nPdEntries)) : ∃ i, k.part d (.tab i) = some x := by
    obtain ⟨i, hi, hp, rfl⟩ := mem_tabs.mp hx
    exact ⟨i, part_tab (List.mem_range.mp hi) hp⟩
  have hpage {x : Res} (hx : x ∈ k.refs d 0 userPages) : ∃ pg, k.part d (.user pg) = some x := by
    obtain ⟨pg, -, hpg, href⟩ := mem_refs.mp hx
    exact ⟨pg, (part_user hpg).trans href⟩
  have htabs : (k.tabs d (List.range nPdEntries)).Nodup := by
    refine List.Nodup.map_on (fun i hi j hj heq => ?_) (List.nodup_range.filter _)
    rw [List.mem_filter, List.mem_range, decide_eq_true_eq] at hi hj
    cases hP.distinct (.tab i) (.tab j) _ (part_tab hi.1 hi.2) ((part_tab hj.1 hj.2).trans (congrArg some heq.symm))
    rfl
  refine List.nodup_append.mpr ⟨List.nodup_append.mpr ⟨hP.refs_nodup le_rfl, htabs, fun x hx y hy heq => ?_⟩,
    List.nodup_singleton _, fun x hx y hy heq => ?_⟩
  · obtain ⟨pg, hpg⟩ := hpage hx
    obtain ⟨i, hi⟩ := htab hy
    cases hP.distinct (.user pg) (.tab i) x hpg (heq ▸ hi)
  · rw [List.mem_singleton] at hy
    subst hy
    rcases List.mem_append.mp hx with hx | hx
    · obtain ⟨pg, hpg⟩ := hpage hx
      cases hP.distinct (.user pg) .dir x hpg (heq ▸ rfl)
    · obtain ⟨i, hi⟩ := htab hx
      cases hP.distinct (.tab i) .dir x hi (heq ▸ rfl)

/-- `deallocuvm` returns the new size having released exactly the pages behind it, in any number of turns that is
enough, and `freevm` releases every page, then every table, then the directory, none of them twice. -/
theorem deallocuvm_releases (hP : PageTable im k d) (hl : k.kmemLocked = false) (hold : oldsz ≤ kernBase)
    (hnew : newsz ≤ oldsz) :
    (∃ k', deallocuvm im d oldsz newsz k = .ok newsz k' ∧ Drops k d (pageCount newsz) (pageCount oldsz) k') ∧
    (∀ m, deallocLoop im d oldsz (pageCount oldsz + m) (pgRoundUp newsz) =
      deallocLoop im d oldsz (pageCount oldsz) (pgRoundUp newsz)) ∧
    (∃ k', freevm im d k = .ok () k' ∧ Freed k d k') ∧
    (k.refs d 0 userPages ++ k.tabs d (List.range nPdEntries) ++ [Res.frame d]).Nodup := by
  obtain ⟨r, k', hk', rfl, hdrops⟩ := exists_ok_of_wp (deallocuvm_drops (E := fun _ _ => False) hP hl hold hnew)
  obtain ⟨u, k₂, hk₂, hfreed⟩ := exists_ok_of_wp (freevm_freed (E := fun _ _ => False) hP hl)
  have hup : pgRoundUp r = pageCount r * pgSize := pgRoundUp_eq (by omega)
  refine ⟨⟨k', hk', hdrops⟩, fun m => deallocLoop_more hold ?_ (Nat.le_add_left ..) m, ⟨k₂, hk₂, hfreed⟩, hP.nodup⟩
  rw [hup]
  exact Nat.mul_mod_left _ _

def mixedImage : Image where
  data := 270
  kend := 290
  alpha := 30
  beta := 7
  link_lt_data := by decide
  data_lt_kend := by decide
  kend_le := by decide
  alpha_le := by decide
  beta_le := by decide

/-- A page table of a resident page and a swapped-out one. -/
def mixed : Kernel :=
  powerOn (fun f i => if f = 300 ∧ i = 0 then mapEntry 301 7 else if f = 301 ∧ i = 0 then mapEntry 302 7
    else if f = 301 ∧ i = 1 then swapEntry 5 7 else 0) fun _ _ => 0

theorem mixed_mem : mixed.mem f i = if f = 300 ∧ i = 0 then mapEntry 301 7 else
    if f = 301 ∧ i = 0 then mapEntry 302 7 else if f = 301 ∧ i = 1 then swapEntry 5 7 else 0 := rfl

theorem mixed_dir (hi : i ≠ 0) : ¬Present (mixed.mem 300 i) := by
  have hzero : mixed.mem 300 i = 0 := by
    have hdir : ¬(300 = 300 ∧ i = 0) := by omega
    have hfirst : ¬(300 = 301 ∧ i = 0) := by omega
    have hsecond : ¬(300 = 301 ∧ i = 1) := by omega
    rw [mixed_mem, if_neg hdir, if_neg hfirst, if_neg hsecond]
  rw [hzero]
  exact not_present_zero

/-- What the page table refers to. -/
theorem mixed_part {p : Part} (h : mixed.part 300 p = some x) : p = .dir ∧ x = .frame 300 ∨
    p = .tab 0 ∧ x = .frame 301 ∨ p = .user 0 ∧ x = .frame 302 ∨ p = .user 1 ∧ x = .slot 5 := by
  cases p with
  | dir => exact .inl ⟨rfl, (Option.some.inj h).symm⟩
  | tab i =>
    obtain ⟨-, hp, rfl⟩ := part_tab_some h
    obtain rfl : i = 0 := by_contra fun hi => mixed_dir hi hp
    exact .inr (.inl ⟨rfl, by decide⟩)
  | user pg =>
    by_cases hpg : pg < userPages
    · rw [part_user hpg, Kernel.userRef, Kernel.entry] at h
      by_cases hdiv : pg / 1024 = 0
      · have hframe : frameOf (mixed.mem 300 0) = 301 := by decide
        have hpres : Present (mixed.mem 300 0) := by decide
        rw [hdiv, if_pos hpres, Option.bind_some, hframe, Nat.mod_eq_of_lt (by omega)] at h
        -- only the first two entries of the table are not empty
        rcases Nat.lt_or_ge pg 2 with hlow | hhigh
        · obtain rfl | rfl : pg = 0 ∨ pg = 1 := by omega
          · exact .inr (.inr (.inl ⟨rfl, (Option.some.inj h).symm.trans (by decide)⟩))
          · exact .inr (.inr (.inr ⟨rfl, (Option.some.inj h).symm.trans (by decide)⟩))
        · have hzero : mixed.mem 301 pg = 0 := by
            have hdir : ¬(301 = 300 ∧ pg = 0) := by omega
            have hfirst : ¬(301 = 301 ∧ pg = 0) := by omega
            have hsecond : ¬(301 = 301 ∧ pg = 1) := by omega
            rw [mixed_mem, if_neg hdir, if_neg hfirst, if_neg hsecond]
          rw [hzero, names_zero] at h
          exact absurd h (Option.some_ne_none x).symm
      · rw [if_neg (mixed_dir hdiv)] at h
        cases h
    · rw [Kernel.part, if_neg hpg] at h
      cases h

theorem mixed_pageTable : PageTable mixedImage mixed 300 where
  distinct p p' x h h' := by
    rcases mixed_part h with ⟨rfl, rfl⟩ | ⟨rfl, rfl⟩ | ⟨rfl, rfl⟩ | ⟨rfl, rfl⟩ <;>
      rcases mixed_part h' with ⟨rfl, hx⟩ | ⟨rfl, hx⟩ | ⟨rfl, hx⟩ | ⟨rfl, hx⟩ <;> first | rfl | cases hx
  stock p x h := by
    rcases mixed_part h with ⟨rfl, rfl⟩ | ⟨rfl, rfl⟩ | ⟨rfl, rfl⟩ | ⟨rfl, rfl⟩
    · exact ⟨by decide, by decide⟩
    · exact ⟨by decide, by decide⟩
    · exact ⟨by decide, by decide⟩
    · exact show 5 < numSlots by decide

/-- Cutting the space back to one page frees the slot; giving it up frees the three pages. -/
theorem deallocuvm_releases_mixed :
    (∃ k', deallocuvm mixedImage 300 8192 1000 mixed = .ok 1000 k' ∧ Drops mixed 300 1 2 k') ∧
    ∃ k', freevm mixedImage 300 mixed = .ok () k' ∧ Freed mixed 300 k' := by
  have hold : 8192 ≤ kernBase := by decide
  have hnew : 1000 ≤ 8192 := by decide
  obtain ⟨hdealloc, -, hfree, -⟩ := deallocuvm_releases mixed_pageTable rfl hold hnew
  exact ⟨hdealloc, hfree⟩

end Xv6.Swap
