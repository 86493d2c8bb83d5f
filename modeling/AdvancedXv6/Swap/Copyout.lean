import AdvancedXv6.Swap.Flat

/-! `copyout` into a directory: what user code will find there. -/

namespace Xv6.Swap
open Function Effect Ownership

variable {im : Image} {k k₁ k₂ k₃ k' : Kernel} {H : Held} {d d' n o o' p va va' pg : Nat} {e w : Word}
  {X : Nat → Nat → Prop} {P : Page} {bs buf : List (BitVec 8)}

/-- The pages of one address space. -/
def ofDir (d d' _ : Nat) : Prop := d' = d

/-- What a directory that nobody sees will get does not matter. -/
theorem Tame.ofDir (h : Tame noPage k k' H) : Tame (ofDir d) k k' (H.build d) where
  calm := h.calm
  built d' pg hd hpg hx := h.built d' pg ((List.mem_cons.mp hd).resolve_left hx) hpg id
  page d' pg hd hpg hx := h.page d' pg ((live_build.mp hd).resolve_left hx) hpg id
  loose hcr3 pg hpg hx := h.loose ((live_build.mp hcr3).resolve_left hx) pg hpg id
  trail := h.trail

theorem Tame.unbuild (h : Tame X k k' (H.build d)) : Tame X k k' H where
  calm := h.calm
  built d' pg hd := h.built d' pg (List.mem_cons_of_mem d hd)
  page d' pg hd := h.page d' pg (live_build.mpr (.inr hd))
  loose hcr3 := h.loose (live_build.mpr (.inr hcr3))
  trail := h.trail

/-- How `exec` can fail: `uva2ka` follows the null pointer of an absent page table. -/
def Fails (e : Panic) (_ : Kernel) : Prop := Exhausted e ∨ e = .faultLoop ∨ e = .nullPointer

theorem supply_fails (im : Image) (p : Nat) : Supply im (Running p) Fails where
  alloc h hA := wp_mono ((supply_running im p).alloc (n := 0) h hA) (fun _ _ h => h) fun _ _ => .inl
  relieve h hA := wp_mono ((supply_running im p).relieve (n := 0) h hA) (fun _ _ h => h) fun _ _ => .inl
  less := (supply_running im p).less
  keep := (supply_running im p).keep

/-! ### New contents for the pages of one directory -/

structure Filled (im : Image) (k k' : Kernel) (H : Held) (d : Nat) : Prop where
  wf : Wf im k' H
  tame : Tame (ofDir d) k k' H
  entry : ∀ pg, pg < tablePages → k'.entry d pg = k.entry d pg
  trail : k'.trail = k.trail

theorem Filled.refl (h : Wf im k H) : Filled im k k H d :=
  ⟨h, (Tame.refl k H).weaken, fun _ _ => rfl, rfl⟩

theorem Filled.trans (h : Filled im k₁ k₂ H d) (h' : Filled im k₂ k₃ H d) :
    Filled im k₁ k₃ H d :=
  ⟨h'.wf, h.tame.trans h'.tame, fun pg hpg => (h'.entry pg hpg).trans (h.entry pg hpg),
    h'.trail.trans h.trail⟩

theorem Filled.fill {P : Page} (h : Wf im k H) (hd : k.Live H d) (hpg : pg < userPages)
    (he : k.entry d pg = some e) (hp : Present e) : Filled im k (k.setPage (frameOf e) P) H d :=
  ⟨h.fillUser hd hpg he hp P, (tame_fill h hd hpg he hp P).forget fun _ _ _ hx => hx.1,
    fun _ hpg' => entry_fill h hd hpg he hp P hd hpg', rfl⟩

theorem pgRoundDown_mod (hva : va < 2 ^ 32) : pgRoundDown va < 2 ^ 32 := by
  rw [pgRoundDown, pgSize]
  omega

/-! ### Runs of bytes -/

theorem byte_setBytes : (P.setBytes o bs).byte o' = (if o ≤ o' then bs[o' - o]? else none).getD (P.byte o') := by
  induction bs generalizing P o with
  | nil => simp [Page.setBytes]
  | cons b bs ih =>
    rw [Page.setBytes, ih, byte_setByte]
    by_cases heq : o' = o
    · subst heq
      simp
    · rw [if_neg heq]
      by_cases hle : o ≤ o'
      · have hlt : o + 1 ≤ o' := by omega
        have hsub : o' - o = (o' - (o + 1)) + 1 := by omega
        rw [if_pos hle, if_pos hlt, hsub, List.getElem?_cons_succ]
      · have hlt : ¬o + 1 ≤ o' := by omega
        rw [if_neg hle, if_neg hlt]

/-- The address space of a directory. -/
def Kernel.image (k : Kernel) (d : Nat) : Space := ⟨0, fun pg => if pg < userPages then k.page d pg else none⟩

/-- The bytes `bs` at `va`, as far as they go, and `r` elsewhere. -/
def patch (va : Nat) (bs : List (BitVec 8)) (r : Nat → Option (BitVec 8)) (va' : Nat) : Option (BitVec 8) :=
  (if va ≤ va' then bs[va' - va]? else none).or (r va')

theorem patch_nil (r : Nat → Option (BitVec 8)) : patch va [] r = r := by
  funext va'
  simp [patch]

theorem patch_append {bs' : List (BitVec 8)} (r : Nat → Option (BitVec 8)) :
    patch (va + bs.length) bs' (patch va bs r) = patch va (bs ++ bs') r := by
  funext va'
  rw [patch, patch, patch]
  by_cases hle : va ≤ va'
  · rw [if_pos hle, if_pos hle]
    by_cases hlt : va + bs.length ≤ va'
    · rw [if_pos hlt, List.getElem?_append_right (by omega), List.getElem?_eq_none (l := bs) (by omega), Option.none_or,
        Nat.sub_add_eq]
    · rw [if_neg hlt, List.getElem?_append_left (by omega), Option.none_or]
  · have hlt : ¬va + bs.length ≤ va' := by omega
    rw [if_neg hle, if_neg hle, if_neg hlt, Option.none_or]

/-- `memmove` into one page that user code may read. -/
theorem read_fill (h : Wf im k H) (hd : k.Live H d) (hpg : va / pgSize < userPages)
    (he : k.entry d (va / pgSize) = some e) (hp : Present e) (hu : User e) (hfit : va % pgSize + bs.length ≤ pgSize) :
    ((k.setPage (frameOf e) ((k.mem (frameOf e)).setBytes (va % pgSize) bs)).image d).read =
      patch va bs (k.image d).read := by
  have huser : User (permOf e) := (user_congr (permOf_permOf e)).mpr hu
  have hpage : k.page d (va / pgSize) = some ⟨fun i => k.mem (frameOf e) i, permOf e⟩ := by
    rw [Kernel.page, he, Option.bind_some, names_present hp, Option.map_some]
    rfl
  have hdiv := Nat.div_add_mod va pgSize
  funext va'
  have hdiv' := Nat.div_add_mod va' pgSize
  have hmod' := Nat.mod_lt va' (show 0 < pgSize by decide)
  rw [Space.read, Kernel.image, patch, Space.read, Kernel.image]
  dsimp only
  by_cases hsame : va' / pgSize = va / pgSize
  · rw [hsame, if_pos hpg, if_pos hpg, page_fill h hd hpg he hp _ hd hpg, if_pos ⟨rfl, rfl⟩, hpage, Option.bind_some,
      Option.bind_some, if_pos huser, if_pos huser, UserPage.byte_eq _ _ hmod', UserPage.byte_eq _ _ hmod', byte_setBytes]
    rw [hsame] at hdiv'
    have hle : va ≤ va' ↔ va % pgSize ≤ va' % pgSize := by omega
    have hsub : va' - va = va' % pgSize - va % pgSize := by omega
    simp only [hle, hsub]
    cases (if va % pgSize ≤ va' % pgSize then bs[va' % pgSize - va % pgSize]? else none) <;> rfl
  · have hout : (if va ≤ va' then bs[va' - va]? else none) = none := by
      by_cases hle : va ≤ va'
      · rw [if_pos hle, List.getElem?_eq_none]
        have hlt : va / pgSize < va' / pgSize :=
          Nat.lt_of_le_of_ne (Nat.div_le_div_right hle) (Ne.symm hsame)
        have hmul := Nat.mul_le_mul_left pgSize (Nat.succ_le_of_lt hlt)
        rw [Nat.mul_succ] at hmul
        omega
      · rw [if_neg hle]
    rw [hout, Option.none_or]
    by_cases hup : va' / pgSize < userPages
    · rw [if_pos hup, if_pos hup, page_fill h hd hpg he hp _ hd hup, if_neg fun hx => hsame hx.2]
    · rw [if_neg hup, if_neg hup]

/-- The bytes were copied, all of them to pages that user code may read. -/
structure CopiedOut (k k' : Kernel) (d va : Nat) (buf : List (BitVec 8)) : Prop where
  below : buf ≠ [] → va + buf.length ≤ kernBase
  read : (k'.image d).read = patch va buf (k.image d).read

theorem CopiedOut.nil (k : Kernel) : CopiedOut k k d va [] := ⟨fun hne => absurd rfl hne, (patch_nil _).symm⟩

/-- The first `m` bytes, up to the end of a page, and then the others. -/
theorem CopiedOut.after {m : Nat} (h : CopiedOut k₁ k' d (va + m) (buf.drop m))
    (hread : (k₁.image d).read = patch va (buf.take m) (k.image d).read)
    (hbelow : va + m ≤ kernBase) : CopiedOut k k' d va buf where
  below _ := by
    by_cases hle : buf.length ≤ m
    · omega
    · have hrest := h.below fun hnil => hle (List.drop_eq_nil_iff.mp hnil)
      rw [List.length_drop] at hrest
      omega
  read := by
    rw [h.read, hread]
    by_cases hle : buf.length ≤ m
    · rw [List.drop_eq_nil_of_le hle, patch_nil, List.take_of_length_le hle]
    · have hlen : (buf.take m).length = m := by
        rw [List.length_take]
        omega
      have happ : patch (va + (buf.take m).length) (buf.drop m) (patch va (buf.take m) (k.image d).read) = _ :=
        patch_append _
      rwa [hlen, List.take_append_drop] at happ

theorem copyoutLoop_spec (n : Nat) {buf : List (BitVec 8)} (h : Wf im k H) (hd : k.Live H d)
    (hva : va < 2 ^ 32) (hn : buf.length ≤ n) :
    wp (copyoutLoop d n va buf) k (fun r k' => Filled im k k' H d ∧ (r = true → CopiedOut k k' d va buf)) Fails := by
  induction n generalizing k va buf with
  | zero =>
    obtain rfl := List.length_eq_zero_iff.mp (Nat.le_zero.mp hn)
    rw [copyoutLoop, wp_pure]
    exact ⟨.refl h, fun _ => .nil k⟩
  | succ n ih =>
    rw [copyoutLoop]
    by_cases hb : buf = []
    · subst hb
      rw [if_pos rfl, wp_pure]
      exact ⟨.refl h, fun _ => .nil k⟩
    · rw [if_neg hb, uva2ka]
      have hva' := pgRoundDown_mod hva
      have hround : pgRoundDown va / pgSize = va / pgSize := by
        rw [pgRoundDown, pgSize]
        omega
      have hoff : va - pgRoundDown va = va % pgSize := by
        rw [pgRoundDown, pgSize]
        omega
      have hmod := Nat.mod_lt va (show 0 < pgSize by decide)
      simp only [wp_bind, wp_get]
      cases hq : k.walk d (pgRoundDown va) with
      | none => exact (wp_throw _).mpr (.inr (.inr rfl))
      | some q =>
        have he := Kernel.entry_of_walk hva' hq
        dsimp only
        by_cases hp : Present (k.load q)
        · by_cases hu : User (k.load q)
          · rw [if_neg (not_not_intro hp), if_neg (not_not_intro hu), wp_pure]
            simp only [wp_bind, wp_modify]
            have hbelow := h.user_va hd hva' he hu
            have hpg := (userPages_of_va hbelow).2
            have hf : Filled im k _ H d := .fill (P := (k.mem (frameOf (k.load q))).setBytes
              (va - pgRoundDown va) (buf.take (pgSize - (va - pgRoundDown va)))) h hd hpg he hp
            rw [hround] at he hpg
            have hfit : va % pgSize + (buf.take (pgSize - va % pgSize)).length ≤ pgSize := by
              rw [List.length_take]
              omega
            have hread := read_fill h hd hpg he hp hu hfit
            -- the address of what is left does not wrap around
            have hnext : (pgRoundDown va + pgSize) % 2 ^ 32 = va + (pgSize - va % pgSize) := by
              rw [kernBase] at hbelow
              rw [pgRoundDown, pgSize] at *
              omega
            rw [hoff] at hf ⊢
            have hlen : (buf.drop (pgSize - va % pgSize)).length ≤ n := by
              have hpos := List.length_pos_iff.mpr hb
              rw [List.length_drop]
              omega
            refine wp_mono (ih hf.wf (hf.tame.calm.live.mpr hd) (Nat.mod_lt _ (by decide)) hlen)
              (fun r k' hpost => ⟨hf.trans hpost.1, fun hr => ?_⟩) (fun _ _ he => he)
            have hrest := hpost.2 hr
            rw [hnext] at hrest
            exact hrest.after hread (by rw [kernBase] at *; rw [pgSize] at *; omega)
          · rw [if_neg (not_not_intro hp), if_pos hu, wp_pure]
            exact (wp_pure _).mpr ⟨.refl h, Bool.noConfusion⟩
        · rw [if_pos hp, wp_pure]
          exact (wp_pure _).mpr ⟨.refl h, Bool.noConfusion⟩

/-! ### What stands in an address space -/

namespace Space
variable {s s' : Space}

/-- User code finds the bytes `bs` at `va`. -/
def Bytes (s : Space) (va : Nat) (bs : List (BitVec 8)) : Prop := ∀ j b, bs[j]? = some b → s.read (va + j) = some b

/-- The strings `ss`, each with its NUL, at the addresses `qs`, none of them below `lo`. -/
def Strings (s : Space) (lo : Nat) (ss : List UserString) (qs : List Nat) : Prop :=
  List.Forall₂ (fun (u : UserString) q => lo ≤ q ∧ s.Bytes q (u.bytes ++ [0])) ss qs

theorem read_congr (h : s'.page = s.page) : s'.read = s.read := by
  funext va
  rw [read, read, h]

theorem Bytes.above {lo : Nat} (h : s.Bytes va bs) (hva : lo ≤ va) (hread : ∀ a, lo ≤ a → s'.read a = s.read a) :
    s'.Bytes va bs := fun j b hb => (hread _ (Nat.le_trans hva (Nat.le_add_right va j))).trans (h j b hb)

theorem Strings.above {lo : Nat} {ss : List UserString} {qs : List Nat} (h : s.Strings lo ss qs)
    (hread : ∀ a, lo ≤ a → s'.read a = s.read a) : s'.Strings lo ss qs :=
  List.Forall₂.imp (fun _ _ hq => ⟨hq.1, hq.2.above hq.1 hread⟩) h

/-- The stack that `main` starts with: a fake return address, `argc`, `argv` and the pointers to the arguments. -/
def Passed (s : Space) (argv : List UserString) : Prop := ∃ sp qs, s.Strings 0 argv qs ∧
  s.Bytes sp (([0xffffffff, argv.length, sp + 12] ++ qs ++ [0]).flatMap wordBytes)

theorem Passed.congr {argv : List UserString} (h : s.Passed argv) (hread : s'.read = s.read) : s'.Passed argv := by
  obtain ⟨sp, qs, hstrings, hwords⟩ := h
  exact ⟨sp, qs, hstrings.above fun a _ => congrFun hread a, hwords.above (Nat.zero_le sp) fun a _ => congrFun hread a⟩

end Space

theorem CopiedOut.bytes (h : CopiedOut k k' d va buf) : (k'.image d).Bytes va buf := by
  intro j b hb
  rw [h.read, patch, if_pos (Nat.le_add_right va j), Nat.add_sub_cancel_left, hb, Option.some_or]

theorem CopiedOut.above (h : CopiedOut k k' d va buf) (hva : va + buf.length ≤ va') :
    (k'.image d).read va' = (k.image d).read va' := by
  rw [h.read, patch, if_pos (by omega), List.getElem?_eq_none (by omega), Option.none_or]

theorem Tame.image (ht : Tame noPage k k' H) (hd : k.Live H d) : k'.image d = k.image d := by
  rw [Kernel.image, Kernel.image, Space.mk.injEq]
  refine ⟨rfl, ?_⟩
  funext pg
  by_cases hpg : pg < userPages
  · rw [if_pos hpg, if_pos hpg, ht.page d pg hd hpg id]
  · rw [if_neg hpg, if_neg hpg]

end Xv6.Swap
