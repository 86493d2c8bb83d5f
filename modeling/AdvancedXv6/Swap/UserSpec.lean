import AdvancedXv6.Swap.ExitSpec

/-! What user code, and the kernel on its behalf, does to the pages of a process. -/

namespace Xv6.Swap
open Function Effect Ownership

variable {im : Image} {k k₀ k₁ k' : Kernel} {H : Held} {d d' f n o o' p va pg pg' : Nat} {e w : Word}
  {q : PtePtr} {E : Panic → Kernel → Prop} {lost : List Nat} {b : BitVec 8} {P : Page}

/-! ### New contents for a page -/

section Fill
variable (h : Wf im k H) (hd : k.Live H d) (hpg : pg < userPages) (he : k.entry d pg = some e)
  (hp : Present e)
include h hd hpg he hp

theorem sameTables_fill (P : Page) : SameTables k (k.setPage (frameOf e) P) H :=
  sameTables_setPage (h.acc.not_table (Accounted.user_ref hd hpg he (names_present hp)) (by simp) (by simp)) P

theorem entry_fill (P : Page) (hd' : k.Live H d') (hpg' : pg' < tablePages) :
    (k.setPage (frameOf e) P).entry d' pg' = k.entry d' pg' :=
  (sameTables_fill h hd hpg he hp P).entry hd' (tablePages_div.mp hpg')

theorem Wf.fillUser (P : Page) : Wf im (k.setPage (frameOf e) P) H where
  acc := (sameTables_fill h hd hpg he hp P).accounted h.acc rfl rfl fun _ => rfl
  sane :=
    { h.sane with
      perm := fun d' pg' e' n hd' hpg' he' => by
        rw [entry_fill h hd hpg he hp P hd' (lt_tablePages hpg')] at he'
        exact h.sane.perm d' pg' e' n hd' hpg' he'
      upper := fun d' pg' e' hd' hlo hpg' he' => by
        rw [entry_fill h hd hpg he hp P hd' hpg'] at he'
        exact h.sane.upper d' pg' e' hd' hlo hpg' he'
      gone := h.sane.gone
      run := h.sane.run }

theorem page_fill (P : Page) (hd' : k.Live H d') (hpg' : pg' < userPages) :
    (k.setPage (frameOf e) P).page d' pg' =
      if d' = d ∧ pg' = pg then some ⟨fun i => P i, permOf e⟩ else k.page d' pg' := by
  rw [Kernel.page, entry_fill h hd hpg he hp P hd' (lt_tablePages hpg')]
  by_cases hx : d' = d ∧ pg' = pg
  · obtain ⟨rfl, rfl⟩ := hx
    rw [if_pos ⟨rfl, rfl⟩, he, Option.bind_some, names_present hp, Option.map_some]
    congr 2
    funext i
    rw [Kernel.contents, setPage_mem_self]
  · rw [if_neg hx, Kernel.page]
    cases he' : k.entry d' pg' with
    | none => rfl
    | some e' =>
      cases ha : names e' with
      | none => simp [ha]
      | some a =>
        have hc : (k.setPage (frameOf e) P).contents a = k.contents a := by
          cases a with
          | slot n => rfl
          | frame g =>
            have hne : g ≠ frameOf e := by
              rintro rfl
              have := h.acc.exact.unique (r := .user d' pg') (s := .user d pg)
                ⟨hd', hpg', e', he', ha⟩ ⟨hd, hpg, e, he, names_present hp⟩
              cases this
              exact hx ⟨rfl, rfl⟩
            funext i
            rw [Kernel.contents, Kernel.contents, setPage_mem_of_ne hne]
        simp [ha, hc]

theorem loose_fill (P : Page) (hcr3 : k.Live H k.cr3) (hpg' : pg' < tablePages)
    (hl : (k.setPage (frameOf e) P).Loose pg') : k.Loose pg' := by
  refine ⟨?_, hl.2⟩
  obtain ⟨e₀, he₀, hno⟩ := hl.1
  refine ⟨e₀, he₀, fun hag => hno ?_⟩
  obtain ⟨e', he', hag⟩ := hag
  exact ⟨e', (entry_fill h hd hpg he hp P hcr3 hpg').trans he', hag⟩

theorem tame_fill (P : Page) : Tame (onePage d pg) k (k.setPage (frameOf e) P) H where
  calm := .of_eq rfl rfl rfl rfl rfl rfl rfl rfl
  built d' pg' hd' hpg' _ := .inl (entry_fill h hd hpg he hp P ⟨.held, hd'⟩ hpg')
  page d' pg' hd' hpg' hx := by
    exact (page_fill h hd hpg he hp P hd' hpg').trans (if_neg hx)
  loose hcr3 pg' hpg' _ hl := loose_fill h hd hpg he hp P hcr3 hpg' hl
  trail := ⟨[], rfl⟩

end Fill

/-! ### Bytes -/

theorem mask_bit {j i : Nat} (hi : i < 32) :
    (0xFF#32 <<< (8 * j)).getLsbD i = decide (8 * j ≤ i ∧ i < 8 * j + 8) := by
  rw [show 0xFF#32 = (BitVec.allOnes 8).setWidth 32 by decide, BitVec.getLsbD_shiftLeft,
    BitVec.getLsbD_setWidth, BitVec.getLsbD_allOnes]
  by_cases h : 8 * j ≤ i
  · simp only [hi, Nat.not_lt.mpr h, h, decide_true, decide_false, Bool.not_false, Bool.true_and,
      true_and, show i - 8 * j < 32 by omega, decide_eq_decide]
    omega
  · simp [hi, h, Nat.not_le.mp h]

theorem byte_replace (w : Word) (b : BitVec 8) {j j' : Nat} (hj' : j' < 4) :
    (((w &&& ~~~(0xFF#32 <<< (8 * j))) ||| (b.setWidth 32 <<< (8 * j))) >>> (8 * j')).setWidth 8 =
      if j' = j then b else (w >>> (8 * j')).setWidth 8 := by
  apply BitVec.eq_of_getLsbD_eq
  intro i hi
  have h32 : 8 * j' + i < 32 := by omega
  have hi32 : i < 32 := by omega
  rw [BitVec.getLsbD_setWidth, BitVec.getLsbD_ushiftRight, BitVec.getLsbD_or, BitVec.getLsbD_and,
    BitVec.getLsbD_not, mask_bit h32, BitVec.getLsbD_shiftLeft, BitVec.getLsbD_setWidth]
  by_cases h : j' = j
  · subst h
    simp [hi, h32, hi32]
  · rw [if_neg h, BitVec.getLsbD_setWidth, BitVec.getLsbD_ushiftRight]
    have hout : ¬(8 * j ≤ 8 * j' + i ∧ 8 * j' + i < 8 * j + 8) := by omega
    by_cases hlt : 8 * j' + i < 8 * j
    · simp [hi, h32, hout, hlt]
    · have hge : 8 ≤ 8 * j' + i - 8 * j := by omega
      simp [hi, h32, hout, BitVec.getLsbD_of_ge b _ hge]

theorem byte_setByte (P : Page) (o o' : Nat) (b : BitVec 8) :
    (P.setByte o b).byte o' = if o' = o then b else P.byte o' := by
  rw [Page.byte, Page.setByte]
  by_cases hw : o' / 4 = o / 4
  · rw [hw, update_self, byte_replace _ b (Nat.mod_lt _ (by decide))]
    by_cases ho : o' = o
    · rw [if_pos ho, if_pos (by rw [ho])]
    · rw [if_neg ho, if_neg (by omega), Page.byte, hw]
  · have ho : o' ≠ o := fun e => hw (e ▸ rfl)
    rw [update_of_ne hw, if_neg ho, Page.byte]

/-- The byte at an offset below the page size. -/
def UserPage.byte (u : UserPage) (o : Nat) : BitVec 8 :=
  Page.byte (fun i => u.words ⟨i % pageWords, Nat.mod_lt _ (by decide)⟩) o

theorem UserPage.byte_eq (P : Page) (perm : Word) (ho : o < pgSize) :
    UserPage.byte ⟨fun i => P i, perm⟩ o = P.byte o := by
  have hlt : o / 4 % pageWords = o / 4 := Nat.mod_eq_of_lt (by
    rw [pgSize] at ho
    rw [pageWords]
    omega)
  rw [UserPage.byte, Page.byte, Page.byte]
  simp only [hlt]

/-! ### User accesses -/

theorem setA_bit (e : Word) {m : Word} (hm : m &&& pteA = 0) : (e ||| pteA) &&& m = e &&& m := by
  rw [BitVec.and_or_distrib_right, BitVec.and_comm pteA, hm]
  exact BitVec.or_zero

theorem agree_setA (he : Present e) : Kernel.Agree e (e ||| pteA) := by
  refine ⟨?_, ?_, setA_bit e (by decide)⟩
  · rw [Present, setA_bit e (by decide)]
    exact he
  · rw [frameOf_eq, frameOf_eq]
    exact BitField.field_or e (k := 12) (by decide)

theorem permOf_permOf (w : Word) : permOf (permOf w) = permOf w := by
  rw [permOf, permOf, BitVec.and_assoc, BitVec.and_self]

theorem writable_permOf (w : Word) : Writable (permOf w) ↔ Writable w := by
  have hmask : (pteW ||| pteU) &&& pteW = pteW := by decide
  rw [Writable, Writable, permOf, BitVec.and_assoc, hmask]

/-- An access below `KERNBASE` is the only one that user code can make. -/
theorem Wf.user_va (h : Wf im k H) (hd : k.Live H d) (h32 : va < 2 ^ 32)
    (he : k.entry d (va / pgSize) = some e) (hu : User e) : va < kernBase := by
  by_contra hge
  refine (h.sane.upper _ _ _ hd ?_ ?_ he).2 hu
  · rw [kernBase] at hge
    rw [userPages, pgSize]
    omega
  · rw [tablePages, pgSize]
    omega

/-- The current process has a page at `va` in memory, and user code may read it. -/
structure Readable (k : Kernel) (va : Nat) (e : Word) : Prop where
  entry : k.entry k.cr3 (va / pgSize) = some e
  present : Present e
  user : User e

theorem userLoad_spec (h : Wf im k H) (hp : k.cur = some p) (hsh : k.cr3 ∉ H.dirs)
    (h32 : va < 2 ^ 32) :
    wp (userLoad va) k (fun r k' => (r = none ∧ k' = k ∧ ∀ e, ¬Readable k va e) ∨
      ∃ e, Readable k va e ∧ r = some (Page.byte (k.mem (frameOf e)) (va % pgSize)) ∧
        Wf im k' H ∧ Quiet noPage k k' H) E := by
  have hd := h.sane.live_cr3 hp
  rw [userLoad, wp_bind, wp_get]
  cases hq : k.walk k.cr3 va with
  | none =>
    refine (wp_pure _).mpr (.inl ⟨rfl, rfl, fun e hr => ?_⟩)
    have := hr.entry
    rw [Kernel.entry_eq_walk h32, hq] at this
    cases this
  | some q =>
    have he := Kernel.entry_of_walk h32 hq
    dsimp only
    by_cases hpu : Present (k.load q) ∧ User (k.load q)
    · rw [if_pos hpu, wp_bind, wp_modify, wp_pure]
      have hva := h.user_va hd h32 he hpu.2
      have ha := agree_setA hpu.1
      exact .inr ⟨k.load q, ⟨he, hpu.1, hpu.2⟩, rfl, h.setAgree hd hq hva hpu.1 ha,
        Quiet.setAgree h.acc hd hsh hq hva hpu.1 ha⟩
    · rw [if_neg hpu, wp_pure]
      refine .inl ⟨rfl, rfl, fun e hr => ?_⟩
      have := hr.entry
      rw [he] at this
      cases this
      exact hpu ⟨hr.present, hr.user⟩

theorem userStore_spec (h : Wf im k H) (hp : k.cur = some p) (hsh : k.cr3 ∉ H.dirs)
    (h32 : va < 2 ^ 32) :
    wp (userStore va b) k
      (fun r k' => (r = false ∧ k' = k ∧ ∀ e, Readable k va e → ¬Writable e) ∨
        ∃ e, Readable k va e ∧ Writable e ∧ r = true ∧ Wf im k' H ∧ (∃ e', Readable k' va e') ∧
          Tame (onePage k.cr3 (va / pgSize)) k k' H ∧ (∀ pg, pg < tablePages → k'.Loose pg → k.Loose pg) ∧
          k'.page k.cr3 (va / pgSize) =
            some ⟨fun i => Page.setByte (k.mem (frameOf e)) (va % pgSize) b i, permOf e⟩) E := by
  have hd := h.sane.live_cr3 hp
  rw [userStore, wp_bind, wp_get]
  cases hq : k.walk k.cr3 va with
  | none =>
    refine (wp_pure _).mpr (.inl ⟨rfl, rfl, fun e hr => ?_⟩)
    have := hr.entry
    rw [Kernel.entry_eq_walk h32, hq] at this
    cases this
  | some q =>
    have he := Kernel.entry_of_walk h32 hq
    dsimp only
    by_cases hpu : Present (k.load q) ∧ User (k.load q) ∧ Writable (k.load q)
    · obtain ⟨hpr, hu, hw⟩ := hpu
      rw [if_pos ⟨hpr, hu, hw⟩, wp_bind, wp_modify, wp_bind, wp_modify, wp_pure]
      have hva := h.user_va hd h32 he hu
      have hpg := (userPages_of_va hva).2
      have ha := agree_setA hpr
      have h₁ := h.setAgree hd hq hva hpr ha
      have hq₁ : Quiet noPage k (k.setPte k.cr3 va q (k.load q ||| pteA)) H :=
        Quiet.setAgree h.acc hd hsh hq hva hpr ha
      have hd₁ : (k.setPte k.cr3 va q (k.load q ||| pteA)).Live H k.cr3 := live_setPte.mpr hd
      have he₁ : (k.setPte k.cr3 va q (k.load q ||| pteA)).entry k.cr3 (va / pgSize) =
          some (k.load q ||| pteA) := by
        rw [entry_setPte h.acc hd hq h32 hd (userPages_div hpg), if_pos ⟨rfl, rfl⟩]
      have hload : (k.setPte k.cr3 va q (k.load q ||| pteA)).load q = k.load q ||| pteA := by
        rw [Kernel.load, Kernel.setPte]
        simp only [update_self]
      have hmem : (k.setPte k.cr3 va q (k.load q ||| pteA)).mem (frameOf (k.load q)) =
          k.mem (frameOf (k.load q)) := mem_store h.acc hd hq (r := .user k.cr3 (va / pgSize))
        (Accounted.user_ref hd hpg he (names_present hpr)) (by simp)
      rw [hload, ha.2.1, hmem]
      rw [← ha.2.1]
      refine .inr ⟨k.load q, ⟨he, hpr, hu⟩, hw, rfl, h₁.fillUser hd₁ hpg he₁ ha.1 _,
        ⟨_, (entry_fill h₁ hd₁ hpg he₁ ha.1 _ hd₁ (lt_tablePages hpg)).trans he₁, ha.1, (user_congr ha.2.2).mpr hu⟩, hq₁.tame.weaken.trans (tame_fill h₁ hd₁ hpg he₁ ha.1 _), fun pg hpg' hl => hq₁.loose hd pg hpg' id
        (loose_fill h₁ hd₁ hpg he₁ ha.1 _ hd₁ hpg' hl), ?_⟩
      rw [page_fill h₁ hd₁ hpg he₁ ha.1 _ hd₁ hpg, if_pos ⟨rfl, rfl⟩, ha.2.2, ha.2.1]
    · rw [if_neg hpu, wp_pure]
      refine .inl ⟨rfl, rfl, fun e hr hw => ?_⟩
      have := hr.entry
      rw [he] at this
      cases this
      exact hpu ⟨hr.present, hr.user, hw⟩

end Xv6.Swap
