import AdvancedXv6.Heap.Blocks

/-! `free` puts a block into the list at its place, and joins it with the free blocks next to it. -/

namespace Xv6.Heap
open Effect Bytes Circle Process

variable {s t : Process} {a b p q x y z n start lo hi bp k : Nat} {gs pre mid post : List Block} {A F l : List Nat}
  {E : Stop → Process → Prop} {next : Nat → Nat}

/-! ### The search -/

/-- In an ordered circle there is one node that the block `bp` goes behind. -/
theorem between_iff (h : Links next (A ++ p :: (F ++ [z]))) (hord : (A ++ p :: F).Pairwise (· < ·)) (hz : z ≤ p)
    (hp : p < bp) (hF : ∀ c ∈ F, bp < c) : ∀ c ∈ A ++ p :: F, Between bp c (next c) ↔ c = p := by
  intro c hc
  obtain ⟨hA, hpF, hAp⟩ := List.pairwise_append.mp hord
  unfold Between
  rcases List.mem_append.mp hc with hc | hc
  · -- below `p` the next node is not beyond `p`
    obtain ⟨A₁, A₂, rfl⟩ := List.append_of_mem hc
    have hcp := hAp c hc p List.mem_cons_self
    have hlinks : Links next (A₁ ++ c :: (A₂ ++ [p])) := by
      have hleft := (List.isChain_split.mp h).1
      simpa only [List.append_assoc, List.cons_append] using hleft
    rcases hlinks.next_cases with ⟨rfl, hd⟩ | ⟨d, m, rfl, hd⟩
    · rw [hd]
      omega
    · have hcd : c < d := (List.pairwise_cons.mp (List.pairwise_append.mp hA).2.1).1 d List.mem_cons_self
      have hdp : d < p := hAp d (by simp) p List.mem_cons_self
      rw [hd]
      omega
  · rcases List.mem_cons.mp hc with rfl | hc
    · rcases h.next_cases with ⟨rfl, hd⟩ | ⟨d, m, rfl, hd⟩
      · rw [hd]
        omega
      · have hbd := hF d List.mem_cons_self
        rw [hd]
        omega
    · obtain ⟨F₁, F₂, rfl⟩ := List.append_of_mem hc
      have hbc := hF c hc
      have hlinks : Links next ((A ++ p :: F₁) ++ c :: (F₂ ++ [z])) := by
        simpa only [List.append_assoc, List.cons_append] using h
      rcases hlinks.next_cases with ⟨rfl, hd⟩ | ⟨d, m, rfl, hd⟩
      · rw [hd]
        omega
      · have hcd : c < d := (List.pairwise_cons.mp (List.pairwise_append.mp (List.pairwise_cons.mp hpF).2).2.1).1 d
          List.mem_cons_self
        rw [hd]
        omega

/-- The search ends at the first node that stops it. -/
theorem wp_freeLoop (h : Links s.ptr (x :: (l ++ [z]))) (hmap : ∀ c ∈ x :: l, s.Mapped c)
    (hstop : ∀ c ∈ x :: l, Between bp c (s.ptr c) ↔ c = p) (hp : p ∈ x :: l) (hk : l.length < k) :
    wp (freeLoop bp k x) s (fun r t => r = p ∧ t = s) E := by
  induction l generalizing x k with
  | nil =>
    obtain ⟨k, rfl⟩ := Nat.exists_eq_add_one.mpr hk
    have hx : x = p := (List.mem_singleton.mp hp).symm
    rw [freeLoop, wp_bind, wp_getPtr (hmap x List.mem_cons_self), if_pos ((hstop x List.mem_cons_self).mpr hx), wp_pure]
    exact ⟨hx, rfl⟩
  | cons y l ih =>
    obtain ⟨k, rfl⟩ := Nat.exists_eq_add_one.mpr (Nat.lt_of_le_of_lt (Nat.zero_le _) hk)
    obtain ⟨hxy, hrest⟩ := List.isChain_cons_cons.mp h
    rw [freeLoop, wp_bind, wp_getPtr (hmap x List.mem_cons_self)]
    by_cases hx : x = p
    · rw [if_pos ((hstop x List.mem_cons_self).mpr hx), wp_pure]
      exact ⟨hx, rfl⟩
    · rw [if_neg fun hb => hx ((hstop x List.mem_cons_self).mp hb), hxy]
      exact ih hrest (fun c hc => hmap c (List.mem_cons_of_mem _ hc)) (fun c hc => hstop c (List.mem_cons_of_mem _ hc))
        ((List.mem_cons.mp hp).resolve_left (Ne.symm hx)) (Nat.lt_of_succ_lt_succ hk)

theorem length_le_total (hpos : ∀ g ∈ gs, 0 < g.units) : gs.length ≤ total gs := by
  induction gs with
  | nil => exact Nat.le_refl 0
  | cons g gs ih =>
    have hg := hpos g List.mem_cons_self
    have hgs := ih fun g hg => hpos g (List.mem_cons_of_mem _ hg)
    rw [List.length_cons, total]
    omega

theorem length_place : (place a gs).length = gs.length := by
  induction gs generalizing a with
  | nil => rfl
  | cons g gs ih => rw [place, List.length_cons, List.length_cons, ih]

theorem Laid.length_frees (h : Laid start gs s) : (frees start gs).length < rounds / 4 := by
  have hfilter : (frees start gs).length ≤ gs.length := by
    rw [frees, List.length_map, ← length_place (a := start)]
    exact List.length_filter_le ..
  have htotal := length_le_total h.pos
  have hlt : 8 * total gs < 2 ^ 31 := h.total_le
  change _ < 2 ^ 30 / 4
  omega

section Search
variable {G₁ G₂ : List Block} {B : Block}

theorem ring_around {base : Nat} (hB : ¬B.Free) (hbp : bp = start + headerSize * total G₁)
    (hA : base :: frees start G₁ = A ++ [p]) :
    base :: frees start (G₁ ++ B :: G₂) = A ++ p :: frees (bp + headerSize * B.units) G₂ := by
  have hskip : frees bp (B :: G₂) = frees (bp + headerSize * B.units) G₂ := by
    rw [frees, place, List.filter_cons_of_neg (by simpa using hB), ← frees]
  rw [frees_append, ← hbp, hskip, ← List.cons_append, hA, List.append_assoc]
  rfl

theorem Laid.prev_lt (h : Laid start (G₁ ++ B :: G₂) s) (hbp : bp = start + headerSize * total G₁)
    (hp : p ∈ s.base :: frees start G₁) : s.base ≤ p ∧ p < bp := by
  have hbase := h.base_le
  unfold headerSize at hbase
  rcases List.mem_cons.mp hp with rfl | hp
  · omega
  · obtain ⟨g, hg, -⟩ := mem_frees.mp hp
    have hbound := place_bounds hg
    have hpos := h.pos g (List.mem_append_left _ (place_mem hg))
    unfold headerSize at hbound hbp
    dsimp only at hbound
    omega

variable (h : Laid start (G₁ ++ B :: G₂) s) (hB : ¬B.Free) (hbp : bp = start + headerSize * total G₁)
  (hA : s.base :: frees start G₁ = A ++ [p])
include h hB hbp hA

theorem Laid.links_around : Links s.ptr (A ++ p :: (frees (bp + headerSize * B.units) G₂ ++ [s.base])) := by
  have hring := circular_cons.mp h.ring
  rw [← List.cons_append, ring_around hB hbp hA] at hring
  simpa only [List.append_assoc, List.cons_append] using hring

/-- `free` finds the free block before the one it has to free. -/
theorem Laid.find : wp (freeLoop bp rounds s.freep) s (fun r t => r = p ∧ t = s) E := by
  obtain ⟨m, hm, hperm⟩ := h.ring.rotate h.freep
  have hiff : ∀ c ∈ s.base :: frees start (G₁ ++ B :: G₂), Between bp c (s.ptr c) ↔ c = p := by
    have hord := h.ring_pairwise
    have hp : p ∈ s.base :: frees start G₁ := hA ▸ List.mem_append_right _ List.mem_cons_self
    obtain ⟨hle, hlt⟩ := h.prev_lt hbp hp
    rw [ring_around hB hbp hA] at hord ⊢
    refine between_iff (h.links_around hB hbp hA) hord hle hlt fun c hc => ?_
    obtain ⟨g, hg, -⟩ := mem_frees.mp hc
    have hbound := (place_bounds hg).1
    have hpos := h.pos B (by simp)
    unfold headerSize at hbound
    dsimp only at hbound
    omega
  have hlen : m.length < rounds := by
    have hlt := h.length_frees
    have heq := hperm.length_eq
    rw [List.length_cons, List.length_cons] at heq
    unfold rounds at hlt ⊢
    omega
  refine wp_freeLoop (circular_cons.mp hm) (fun c hc => h.mapped (ring_sub (hperm.mem_iff.mp hc)))
    (fun c hc => hiff c (hperm.mem_iff.mp hc)) (hperm.mem_iff.mpr ?_) hlen
  rw [ring_around hB hbp hA]
  exact List.mem_append_right _ List.mem_cons_self

end Search

/-! ### The neighbours -/

/-- A free block at the head of the list, if there is one. -/
theorem split_next (h : Spaced gs) : ∃ R post, gs = R ++ post ∧ (R = [] ∨ ∃ m, R = [⟨m, none⟩]) ∧
    ∀ g ∈ post.head?, ¬g.Free := by
  cases gs with
  | nil => exact ⟨[], [], rfl, .inl rfl, by simp⟩
  | cons g gs =>
    by_cases hg : g.Free
    · obtain ⟨m, req⟩ := g
      cases (show req = none from hg)
      exact ⟨[⟨m, none⟩], gs, rfl, .inr ⟨m, rfl⟩, fun k hk hf => (List.IsChain.rel_head? h hk) ⟨rfl, hf⟩⟩
    · exact ⟨[], g :: gs, rfl, .inl rfl, by simpa using hg⟩

/-- A free block at the end. -/
theorem split_prev (h : Spaced gs) : ∃ pre L, gs = pre ++ L ∧ (L = [] ∨ ∃ m, L = [⟨m, none⟩]) ∧
    ∀ g ∈ pre.getLast?, ¬g.Free := by
  have hrev : Spaced gs.reverse := (List.isChain_reverse.mpr h).imp fun g k hn hand => hn hand.symm
  obtain ⟨R, post, heq, hR, hpost⟩ := split_next hrev
  refine ⟨post.reverse, R.reverse, ?_, ?_, by rwa [List.getLast?_reverse]⟩
  · rw [← List.reverse_append, ← heq, List.reverse_reverse]
  · rcases hR with rfl | ⟨m, rfl⟩
    · exact .inl rfl
    · exact .inr ⟨m, rfl⟩

theorem frees_gt (hpos : ∀ g ∈ gs, 0 < g.units) (hhead : ∀ g ∈ gs.head?, ¬g.Free) : ∀ c ∈ frees a gs, a < c := by
  intro c hc
  obtain ⟨g, hg, hfree⟩ := mem_frees.mp hc
  cases gs with
  | nil => exact absurd hg List.not_mem_nil
  | cons g₀ gs =>
    rcases List.mem_cons.mp hg with heq | hg
    · exact absurd ((Prod.mk.inj heq).2 ▸ hfree) (hhead g₀ rfl)
    · have hbound := (place_bounds hg).1
      have hg₀ := hpos g₀ List.mem_cons_self
      unfold headerSize at hbound
      dsimp only at hbound
      omega

theorem frees_end_lt (hpos : ∀ g ∈ gs, 0 < g.units) (hlast : ∀ g ∈ gs.getLast?, ¬g.Free) {x : Nat × Block}
    (hx : x ∈ place a gs) (hfree : x.2.Free) : x.1 + headerSize * x.2.units < a + headerSize * total gs := by
  rcases List.eq_nil_or_concat gs with rfl | ⟨gs, g, rfl⟩
  · exact absurd hx List.not_mem_nil
  · rw [List.concat_eq_append] at *
    rw [place_append, List.mem_append] at hx
    rcases hx with hx | hx
    · have hbound := (place_bounds hx).2
      have hg := hpos g (by simp)
      rw [total_append, total, total]
      unfold headerSize at hbound ⊢
      omega
    · cases List.mem_singleton.mp hx
      exact absurd hfree (hlast g (by simp))

/-! ### The joins -/

theorem add_eq (h : p + headerSize * n < kernbase) : add p n = p + headerSize * n := by
  have hlt : p + headerSize * n < uint := Nat.lt_trans h (by decide)
  rw [add, Nat.mul_comm n, Nat.mod_eq_of_lt hlt]

section Join
variable {G₁ R post pre L : List Block} {B : Block} {C : List Nat}

theorem wp_joinNext (h : Laid start (G₁ ++ B :: (R ++ post)) s) (hB : ¬B.Free) (hbp : bp = start + headerSize * total G₁)
    (hhi : hi = bp + headerSize * (B.units + total R)) (hA : s.base :: frees start G₁ = A ++ [p])
    (hR : R = [] ∨ ∃ m, R = [⟨m, none⟩]) (hpost : ∀ g ∈ post.head?, ¬g.Free) (hy : frees hi post ++ [s.base] = y :: C) :
    wp (joinNext bp p) s (fun _ t => (∀ q, Touches q bp hi s t) ∧ t.freep = s.freep ∧ t.size bp = B.units + total R ∧ t.ptr bp = y)
      E := by
  have hpin : p ∈ s.base :: frees start (G₁ ++ B :: (R ++ post)) := by
    rw [ring_around hB hbp hA]
    exact List.mem_append_right _ List.mem_cons_self
  have hplace : place start (G₁ ++ B :: (R ++ post)) =
      place start G₁ ++ (bp, B) :: (place (bp + headerSize * B.units) R ++ place hi post) := by
    rw [place_append, ← hbp, place, place_append, hhi, Nat.mul_add, Nat.add_assoc]
  have hbpin : (bp, B) ∈ place start (G₁ ++ B :: (R ++ post)) := by
    rw [hplace]
    exact List.mem_append_right _ List.mem_cons_self
  have hmapbp : s.Mapped bp := h.mapped (place_header hbpin)
  have hsizebp : s.size bp = B.units := h.sizes _ hbpin
  have hyin : y ∈ frees hi post ++ [s.base] := hy ▸ List.mem_cons_self
  have hyhead : y ∈ headers s.base start (G₁ ++ B :: (R ++ post)) := by
    rcases List.mem_append.mp hyin with hf | hb
    · obtain ⟨g, hg, -⟩ := mem_frees.mp hf
      refine place_header (x := (y, g)) ?_
      rw [hplace]
      exact List.mem_append_right _ (List.mem_cons_of_mem _ (List.mem_append_right _ hg))
    · exact List.mem_singleton.mp hb ▸ List.mem_cons_self
  have hylt : y < uint := (h.mapped hyhead).fits.lt
  have hlinks := h.links_around hB hbp hA
  have hBpos : 0 < B.units := h.pos B (by simp)
  have hsz := h.sz_eq
  have hszlt := h.sz_lt
  rw [total_append, total, total_append, Nat.mul_add, Nat.mul_add, Nat.mul_add] at hsz
  rw [joinNext, wp_bind, wp_getPtr (h.mapped (ring_sub hpin)), wp_bind, wp_getSize hmapbp, hsizebp,
    add_eq (by omega)]
  have hhile : hi ≤ s.sz := by
    rw [hhi, Nat.mul_add]
    omega
  have hroom : bp + headerSize ≤ hi := by
    unfold headerSize at hhi ⊢
    omega
  rcases hR with rfl | ⟨m, rfl⟩
  · rw [List.nil_append, ← Nat.add_zero B.units, ← total, ← hhi, hy] at hlinks
    have hne : hi ≠ y := by
      rcases List.mem_append.mp hyin with hf | hb
      · exact Nat.ne_of_lt (frees_gt (fun g hg => h.pos g (by simp [hg])) hpost y hf)
      · have hbase := h.prev_lt hbp (p := s.base) List.mem_cons_self
        rw [List.mem_singleton.mp hb]
        omega
    rw [hlinks.next_eq, ← Nat.add_zero B.units, ← total, ← hhi, if_neg hne, wp_setPtr hmapbp]
    exact ⟨fun q => Touches.refl.setPtr (.inr ⟨Nat.le_refl bp, hroom⟩) hmapbp.fits, rfl,
      (size_setPtr hmapbp.fits).trans hsizebp, ptr_setPtr hylt⟩
  · generalize hnext : bp + headerSize * B.units = nx at *
    have hhi' : hi = nx + headerSize * m := by
      rw [hhi, total, total, Nat.add_zero, Nat.mul_add, ← Nat.add_assoc, hnext]
    have hskip : frees nx ([⟨m, none⟩] ++ post) = nx :: frees hi post := by
      rw [hhi', List.singleton_append, frees, place, List.filter_cons_of_pos (by simp [Block.Free]), List.map_cons, ← frees]
    rw [hskip, List.cons_append, hy] at hlinks
    have hnxin : (nx, ⟨m, none⟩) ∈ place start (G₁ ++ B :: ([⟨m, none⟩] ++ post)) := by
      rw [hplace]
      exact List.mem_append_right _ (List.mem_cons_of_mem _ List.mem_cons_self)
    have hmapnx : s.Mapped nx := h.mapped (place_header hnxin)
    have hsizenx : s.size nx = m := h.sizes _ hnxin
    have hptrnx : s.ptr nx = y := by
      have hlinks' : Links s.ptr ((A ++ [p]) ++ nx :: y :: C) := by rwa [List.append_assoc]
      exact hlinks'.next_eq
    have hapart : Apart bp nx := .inl (by unfold headerSize at hnext; omega)
    have hsum : B.units + m < uint := by
      have hk : kernbase < uint := by decide
      unfold headerSize at hnext hhi'
      clear hsz
      omega
    rw [hlinks.next_eq, if_pos rfl, wp_bind, wp_getSize hmapnx, hsizenx, Nat.mod_eq_of_lt hsum, wp_bind, wp_setSize hmapbp,
      wp_bind, wp_getPtr (mapped_setSize.mpr hmapnx), ptr_setSize_of_apart hmapbp.fits hapart, hptrnx,
      wp_setPtr (mapped_setSize.mpr hmapbp)]
    have hin : bp ≤ bp ∧ bp + headerSize ≤ hi := ⟨Nat.le_refl bp, hroom⟩
    refine ⟨fun q => (Touches.refl.setSize hin hmapbp.fits).setPtr (.inr hin) hmapbp.fits, rfl, ?_, ptr_setPtr hylt⟩
    rw [size_setPtr hmapbp.fits, size_setSize hsum, total, total, Nat.add_zero]

end Join

/-- The block `B` at `bp` has become free. -/
structure Freed (start bp : Nat) (B : Block) (gs gs' : List Block) (s t : Process) : Prop where
  laid : Laid start gs' t
  live_iff : ∀ x, x ∈ lives start gs' ↔ x ∈ lives start gs ∧ x ≠ (bp, B)
  spares : Spares (lives start gs') s t
  base : t.base = s.base
  sz : t.sz = s.sz
  room : ∃ x ∈ place start gs', x.2.Free ∧ B.units ≤ x.2.units

/-- The blocks `mid`, of which only `B` is live, become one free block. -/
theorem Laid.merged {B : Block} {C : List Nat} (h : Laid start (pre ++ (mid ++ post)) s)
    (hlo : lo = start + headerSize * total pre) (hhi : hi = lo + headerSize * total mid)
    (hq : s.base :: frees start pre = A ++ [q]) (hy : frees hi post ++ [s.base] = y :: C)
    (hpre : ∀ g ∈ pre.getLast?, ¬g.Free) (hpost : ∀ g ∈ post.head?, ¬g.Free) (hmid : lives lo mid = [(bp, B)])
    (ht : Touches q lo hi s t) (hsize : t.size lo = total mid) (hptr : t.ptr q = lo) (hptr' : t.ptr lo = y)
    (hfreep : t.freep = q ∨ t.freep = lo) : Freed start bp B (pre ++ (mid ++ post)) (pre ++ ([⟨total mid, none⟩] ++ post)) s t := by
  have hfrees : frees lo [⟨total mid, none⟩] = [lo] := rfl
  have hBin : (bp, B) ∈ place lo mid := (mem_lives.mp (hmid ▸ List.mem_singleton_self _)).1
  have hBpos : 0 < B.units := h.pos B (List.mem_append_right _ (List.mem_append_left _ (place_mem hBin)))
  have hBbound : lo ≤ bp ∧ bp + headerSize * B.units ≤ lo + headerSize * total mid := place_bounds hBin
  rw [← hhi] at hBbound
  have hBle : B.units ≤ total mid := by
    unfold headerSize at hBbound hhi
    omega
  have hlives : lives start (pre ++ ([⟨total mid, none⟩] ++ post)) = lives start pre ++ lives hi post := by
    have hnone : lives lo [⟨total mid, none⟩] = [] := rfl
    rw [lives_append, lives_append, ← hlo, hnone, List.nil_append, total, total, Nat.add_zero, ← hhi]
  have hspaced : Spaced (pre ++ ([⟨total mid, none⟩] ++ post)) := by
    obtain ⟨hp, hrest, -⟩ := List.isChain_append.mp h.spaced
    obtain ⟨-, hpo, -⟩ := List.isChain_append.mp hrest
    refine List.isChain_append.mpr ⟨hp, List.isChain_append.mpr ⟨List.isChain_singleton _, hpo, ?_⟩, ?_⟩
    · exact fun _ _ g hg hand => hpost g hg hand.2
    · exact fun g hg _ _ hand => hpre g hg hand.1
  have hqin : q ∈ s.base :: frees start pre := hq ▸ List.mem_append_right _ List.mem_cons_self
  refine ⟨?_, fun x => ?_, ?_, ht.base, ht.sz, ?_⟩
  · refine h.replace hlo hhi (by rw [total, total, Nat.add_zero]) hq hy ht (fun g hg => ?_) (fun x hx => ?_) ?_ ?_ hspaced
    · rw [List.mem_singleton.mp hg]
      exact Nat.lt_of_lt_of_le hBpos hBle
    · rw [List.mem_singleton.mp hx]
      exact hsize
    · rw [hfrees]
      exact List.isChain_cons_cons.mpr ⟨hptr, List.isChain_pair.mpr hptr'⟩
    · rwa [hfrees, List.mem_singleton]
  · have hold : lives start (pre ++ (mid ++ post)) = lives start pre ++ ((bp, B) :: lives hi post) := by
      rw [lives_append, lives_append, ← hlo, hmid, ← hhi, List.singleton_append]
    have hnotpre : (bp, B) ∉ lives start pre := fun hin => by
      have hbound := (place_bounds (mem_lives.mp hin).1).2
      unfold headerSize at hbound hlo
      dsimp only at hbound
      omega
    have hnotpost : (bp, B) ∉ lives hi post := fun hin => by
      have hbound := (place_bounds (mem_lives.mp hin).1).1
      unfold headerSize at hBbound
      dsimp only at hbound
      omega
    rw [hlives, hold, List.mem_append, List.mem_append, List.mem_cons]
    constructor
    · rintro (hx | hx)
      · exact ⟨.inl hx, fun heq => hnotpre (heq ▸ hx)⟩
      · exact ⟨.inr (.inr hx), fun heq => hnotpost (heq ▸ hx)⟩
    · rintro ⟨hx | heq | hx, hne⟩
      · exact .inl hx
      · exact absurd heq hne
      · exact .inr hx
  · rw [hlives]
    exact h.spares hlo hhi hqin ht
  · refine ⟨(lo, ⟨total mid, none⟩), ?_, rfl, hBle⟩
    rw [place_append, ← hlo]
    exact List.mem_append_right _ List.mem_cons_self

theorem wp_free {G₁ G₂ : List Block} {B : Block} (h : Laid start (G₁ ++ B :: G₂) s) (hB : ¬B.Free)
    (hbp : bp = start + headerSize * total G₁) :
    wp (free (bp + headerSize)) s (fun _ t => ∃ gs', Freed start bp B (G₁ ++ B :: G₂) gs' s t) E := by
  obtain ⟨hG₁, hrest, -⟩ := List.isChain_append.mp h.spaced
  obtain ⟨R, post, rfl, hR, hpost⟩ := split_next (List.IsChain.tail hrest)
  obtain ⟨pre, L, rfl, hL, hpre⟩ := split_prev hG₁
  have hbpin : (bp, B) ∈ place start (pre ++ L ++ B :: (R ++ post)) := by
    rw [place_append, ← hbp]
    exact List.mem_append_right _ List.mem_cons_self
  have hmapbp : s.Mapped bp := h.mapped (place_header hbpin)
  have hap : (bp + headerSize + uint - headerSize) % uint = bp := by
    rw [show bp + headerSize + uint - headerSize = bp + uint by unfold headerSize; omega, Nat.add_mod_right,
      Nat.mod_eq_of_lt hmapbp.fits.lt]
  obtain ⟨A, p, hA⟩ : ∃ A p, s.base :: frees start (pre ++ L) = A ++ [p] :=
    ⟨_, _, (List.dropLast_append_getLast (List.cons_ne_nil _ _)).symm⟩
  generalize hhi : bp + headerSize * (B.units + total R) = hi
  obtain ⟨y, C, hy⟩ := List.exists_cons_of_ne_nil (l := frees hi post ++ [s.base]) (by simp)
  have hpin : p ∈ s.base :: frees start (pre ++ L ++ B :: (R ++ post)) := by
    rw [ring_around hB hbp hA]
    exact List.mem_append_right _ List.mem_cons_self
  have hmapp : s.Mapped p := h.mapped (ring_sub hpin)
  rw [free, wp_bind, wp_get, hap]
  refine wp_seq (h.find hB hbp hA) fun r s' hr => ?_
  rw [hr.1, hr.2]
  have hBpos : 0 < B.units := h.pos B (by simp)
  have hroom : bp + headerSize ≤ hi := by
    unfold headerSize at hhi ⊢
    omega
  have hbase := h.base_le
  have hlives : lives bp (B :: R) = [(bp, B)] := by
    have hB' : ¬B.req = none := hB
    rcases hR with rfl | ⟨m, rfl⟩ <;> simp [lives, place, Block.Free, hB']
  refine wp_seq (wp_joinNext h hB hbp hhi.symm hA hR hpost hy) fun _ t ht => ?_
  obtain ⟨htouch, hfreep, hsize, hptr⟩ := ht
  have hmapt {a : Nat} (ha : s.Mapped a) : t.Mapped a := by
    unfold Mapped
    rwa [(htouch bp).sz, (htouch bp).top]
  rw [joinPrev, wp_bind, wp_bind, wp_getSize (hmapt hmapp)]
  rcases hL with rfl | ⟨l, rfl⟩
  · rw [List.append_nil] at *
    have hpmem : p ∈ s.base :: frees start pre := hA ▸ List.mem_append_right _ List.mem_cons_self
    obtain ⟨hpbp, hend⟩ : p + headerSize ≤ bp ∧ p + headerSize * s.size p < bp := by
      rcases List.mem_cons.mp hpmem with rfl | hpf
      · rw [h.size_base]
        unfold headerSize at hbase hbp ⊢
        omega
      · obtain ⟨g, hg, hfree⟩ := mem_frees.mp hpf
        have hgin : (p, g) ∈ place start (pre ++ B :: (R ++ post)) := by
          rw [place_append]
          exact List.mem_append_left _ hg
        have hsizep : s.size p = g.units := h.sizes _ hgin
        have hgpos : 0 < g.units := h.pos g (place_mem hgin)
        have hlt : p + headerSize * g.units < start + headerSize * total pre :=
          frees_end_lt (fun k hk => h.pos k (List.mem_append_left _ hk)) hpre hg hfree
        rw [hsizep, hbp]
        refine ⟨?_, hlt⟩
        unfold headerSize at hlt ⊢
        omega
    have hpbase : p ≠ bp := by
      unfold headerSize at hpbp
      omega
    have hne : add p (t.size p) ≠ bp := by
      rw [(htouch p).size p hmapp.fits (.inl hpbp) (.inl rfl), add_eq (hend.trans ?_)]
      · exact Nat.ne_of_lt hend
      · exact Nat.lt_of_lt_of_le (Nat.lt_add_of_pos_right (by decide)) hmapbp.fits
    have hapart : Apart p bp := .inl hpbp
    rw [if_neg hne, wp_setPtr (hmapt hmapp), wp_modify]
    have hmid : Laid start (pre ++ ((B :: R) ++ post)) s := h
    refine ⟨_, hmid.merged hbp hhi.symm hA hy hpre hpost hlives
      (((htouch p).setPtr (.inl rfl) hmapp.fits).setFreep) ?_ ?_ ?_ (.inl rfl)⟩
    · exact (size_setPtr_of_apart hmapbp.fits hapart).trans hsize
    · exact ptr_setPtr hmapbp.fits.lt
    · exact (ptr_setPtr_of_apart hapart).trans hptr
  · generalize hlo : start + headerSize * total pre = lo at *
    have hbplo : bp = lo + headerSize * l := by
      rw [hbp, total_append, Nat.mul_add, ← Nat.add_assoc, hlo, total, total, Nat.add_zero]
    have hfreesL : frees start (pre ++ [⟨l, none⟩]) = frees start pre ++ [lo] := by
      rw [frees_append, hlo]
      rfl
    rw [hfreesL, ← List.cons_append] at hA
    obtain ⟨hAeq, hpeq⟩ := List.append_inj' hA rfl
    obtain rfl : lo = p := List.singleton_inj.mp hpeq
    obtain ⟨A', q, hA'⟩ : ∃ A' q, s.base :: frees start pre = A' ++ [q] :=
      ⟨_, _, (List.dropLast_append_getLast (List.cons_ne_nil _ _)).symm⟩
    have hsplit : pre ++ [⟨l, none⟩] ++ B :: (R ++ post) = pre ++ ((⟨l, none⟩ :: B :: R) ++ post) := by
      rw [List.append_assoc]
      rfl
    rw [hsplit] at h hpin hbpin ⊢
    have hloin : (lo, ⟨l, none⟩) ∈ place start (pre ++ ((⟨l, none⟩ :: B :: R) ++ post)) := by
      rw [place_append, hlo]
      exact List.mem_append_right _ List.mem_cons_self
    have hqin : q ∈ s.base :: frees start (pre ++ ((⟨l, none⟩ :: B :: R) ++ post)) := by
      rw [frees_append, ← List.cons_append, hA']
      exact List.mem_append_left _ (List.mem_append_right _ List.mem_cons_self)
    have hqpre : q ∈ s.base :: frees start pre := hA' ▸ List.mem_append_right _ List.mem_cons_self
    have hqlt : q < lo := (h.prev_lt hlo.symm hqpre).2
    have hlpos : 0 < l := h.pos ⟨l, none⟩ (by simp)
    have hsizelo : s.size lo = l := h.sizes _ hloin
    have hlobp : lo + headerSize ≤ bp := by
      unfold headerSize at hbplo ⊢
      omega
    have hapart : Apart lo bp := .inl hlobp
    have hqlo : Apart q lo := h.apart (ring_sub hqin) (place_header hloin) (Nat.ne_of_lt hqlt)
    have hqbp : Apart q bp := h.apart (ring_sub hqin) (place_header hbpin) (Nat.ne_of_lt (by omega))
    have hqout : q + headerSize ≤ bp ∨ hi ≤ q := .inl (by unfold Apart at hqlo; unfold headerSize at hlobp ⊢; omega)
    have hsizelo' : t.size lo = l := by rw [(htouch lo).size lo hmapp.fits (.inl hlobp) (.inl rfl), hsizelo]
    have hadd : add lo (t.size lo) = bp := by
      have hlt : lo + headerSize * l < kernbase :=
        hbplo ▸ Nat.lt_of_lt_of_le (Nat.lt_add_of_pos_right (by decide)) hmapbp.fits
      rw [hsizelo', add_eq hlt, hbplo]
    have htotal : total (⟨l, none⟩ :: B :: R) = l + (B.units + total R) := rfl
    have hhilo : hi = lo + headerSize * total (⟨l, none⟩ :: B :: R) := by
      rw [htotal, Nat.mul_add, ← Nat.add_assoc, ← hbplo, hhi]
    have hsum : l + (B.units + total R) < uint := by
      have hle := h.total_le
      have hk : kernbase < uint := by decide
      rw [total_append, total_append, htotal] at hle
      unfold headerSize at hle
      omega
    have hinlo : lo ≤ lo ∧ lo + headerSize ≤ hi := ⟨Nat.le_refl lo, by unfold headerSize at hlobp hroom ⊢; omega⟩
    have hylt : y < uint := hptr ▸ Nat.lt_of_lt_of_le word_lt (by decide)
    have hlink : s.ptr q = lo := by
      have hring := circular_cons.mp h.ring
      rw [frees_append, hlo, ← List.cons_append, ← List.cons_append, hA'] at hring
      have hhead : frees lo ((⟨l, none⟩ :: B :: R) ++ post) =
          lo :: frees (lo + headerSize * l) (B :: (R ++ post)) := rfl
      rw [hhead, List.append_assoc, List.append_assoc, List.singleton_append] at hring
      exact hring.next_eq
    rw [if_pos hadd, wp_bind, wp_getSize (hmapt hmapbp), hsize, hsizelo', Nat.mod_eq_of_lt hsum, wp_bind,
      wp_setSize (hmapt hmapp), wp_bind, wp_getPtr (mapped_setSize.mpr (hmapt hmapbp)),
      ptr_setSize_of_apart hmapp.fits hapart, hptr, wp_setPtr (mapped_setSize.mpr (hmapt hmapp)), wp_modify]
    refine ⟨_, h.merged (q := q) hlo.symm hhilo hA' hy hpre hpost ?_
      (((((htouch q).mono (Nat.le_of_lt (Nat.lt_of_lt_of_le (Nat.lt_add_of_pos_right (by decide)) hlobp))).setSize
        hinlo hmapp.fits).setPtr (.inr hinlo) hmapp.fits).setFreep) ?_ ?_ ?_ (.inr rfl)⟩
    · rw [← hlives, hbplo, lives, place, List.filter_cons_of_neg (by simp [Block.Free]), ← lives]
    · exact (size_setPtr hmapp.fits).trans (size_setSize hsum)
    · have hqfit := (h.mapped (ring_sub hqin)).fits
      calc (((t.setSize lo (l + (B.units + total R))).setPtr lo y).ptr q)
        _ = (t.setSize lo (l + (B.units + total R))).ptr q := ptr_setPtr_of_apart hqlo.symm
        _ = t.ptr q := ptr_setSize_of_apart hmapp.fits hqlo.symm
        _ = s.ptr q := (htouch bp).ptr q hqfit hqout hqbp.symm
        _ = lo := hlink
    · exact ptr_setPtr hylt

end Xv6.Heap
