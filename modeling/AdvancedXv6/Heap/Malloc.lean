import AdvancedXv6.Heap.Free

/-! `malloc` takes the tail of the first free block that is long enough, and asks for more memory after one round
of the list without success. -/

namespace Xv6.Heap
open Effect Bytes Circle Process

variable {s t u : Process} {a b m n p q r x y z start lo hi k nunits : Nat} {gs gs' pre post : List Block} {A C l : List Nat}
  {Q : Nat → Process → Prop} {E : Stop → Process → Prop} {sbrk : Int → M Nat}

/-! ### A block is taken -/

/-- A block of `n` units at `a` has become live. -/
structure Carved (start a n r : Nat) (gs gs' : List Block) (s t : Process) : Prop where
  laid : Laid start gs' t
  live_iff : ∀ x, x ∈ lives start gs' ↔ x ∈ lives start gs ∨ x = (a, ⟨n, some r⟩)
  clear : ∀ x ∈ lives start gs, Clear x (a, ⟨n, some r⟩)
  spares : Spares (lives start gs) s t
  base : t.base = s.base
  sz : t.sz = s.sz

theorem frees_split (h : p ∈ frees a gs) : ∃ pre m post, gs = pre ++ ⟨m, none⟩ :: post ∧ p = a + headerSize * total pre := by
  induction gs generalizing a with
  | nil => exact absurd h List.not_mem_nil
  | cons g gs ih =>
    obtain ⟨k, hk, hfree⟩ := mem_frees.mp h
    rcases List.mem_cons.mp hk with heq | hk
    · obtain ⟨hp, rfl⟩ := Prod.mk.inj heq
      obtain ⟨m, req⟩ := k
      cases (show req = none from hfree)
      exact ⟨[], m, gs, rfl, hp⟩
    · obtain ⟨pre, m, post, rfl, hp⟩ := ih (mem_frees.mpr ⟨k, hk, hfree⟩)
      exact ⟨g :: pre, m, post, rfl, by rw [hp, total, Nat.mul_add, Nat.add_assoc]⟩

section Carve
variable (h : Laid start (pre ++ ([⟨m, none⟩] ++ post)) s) (hlo : lo = start + headerSize * total pre)
include h hlo

/-- The free block at `lo` in the circle. -/
theorem Laid.links_free (hq : s.base :: frees start pre = A ++ [q])
    (hy : frees (lo + headerSize * m) post ++ [s.base] = y :: C) : s.ptr q = lo ∧ s.ptr lo = y := by
  have hring := circular_cons.mp h.ring
  have hhead : frees lo ([⟨m, none⟩] ++ post) = lo :: frees (lo + headerSize * m) post := rfl
  rw [frees_append, ← hlo, hhead, ← List.cons_append, ← List.cons_append, hq, List.append_assoc, List.append_assoc,
    List.singleton_append, List.cons_append, hy] at hring
  refine ⟨hring.next_eq, ?_⟩
  have hring' : Links s.ptr ((A ++ [q]) ++ lo :: y :: C) := by rwa [List.append_assoc]
  exact hring'.next_eq

/-- The blocks that come in place of the free block have one live among them. -/
theorem Laid.carved {mid' : List Block} (hq : s.base :: frees start pre = A ++ [q])
    (hy : frees (lo + headerSize * m) post ++ [s.base] = y :: C) (ht : Touches q lo (lo + headerSize * m) s t)
    (htotal : total mid' = m) (hpos : ∀ g ∈ mid', 0 < g.units) (hlives : lives lo mid' = [(a, ⟨n, some r⟩)])
    (hsizes : ∀ x ∈ place lo mid', t.size x.1 = x.2.units) (hlink : Links t.ptr (q :: (frees lo mid' ++ [y])))
    (hfreep : t.freep = q) (hspaced : Spaced (pre ++ (mid' ++ post))) :
    Carved start a n r (pre ++ ([⟨m, none⟩] ++ post)) (pre ++ (mid' ++ post)) s t := by
  have hmid : total [⟨m, none⟩] = m := Nat.add_zero m
  have hin : (a, ⟨n, some r⟩) ∈ place lo mid' := (mem_lives.mp (hlives ▸ List.mem_singleton_self _)).1
  obtain ⟨hla, hah⟩ : lo ≤ a ∧ a + headerSize * n ≤ lo + headerSize * m := htotal ▸ place_bounds hin
  have hold : lives start (pre ++ ([⟨m, none⟩] ++ post)) = lives start pre ++ lives (lo + headerSize * m) post := by
    have hnone : lives lo [⟨m, none⟩] = [] := rfl
    rw [lives_append, lives_append, ← hlo, hnone, hmid, List.nil_append]
  have hnew : lives start (pre ++ (mid' ++ post)) =
      lives start pre ++ ((a, ⟨n, some r⟩) :: lives (lo + headerSize * m) post) := by
    rw [lives_append, lives_append, ← hlo, hlives, htotal, List.singleton_append]
  refine ⟨?_, fun x => ?_, fun x hx => ?_, ?_, ht.base, ht.sz⟩
  · exact h.replace hlo (by rw [hmid]) (htotal.trans hmid.symm) hq hy ht hpos hsizes hlink (.inl hfreep) hspaced
  · rw [hold, hnew, List.mem_append, List.mem_append, List.mem_cons]
    tauto
  · rw [hold, List.mem_append, mem_lives, mem_lives] at hx
    rcases hx with hx | hx
    · have hbound := (place_bounds hx.1).2
      exact .inl ((hlo ▸ hbound).trans hla)
    · exact .inr (hah.trans (place_bounds hx.1).1)
  · rw [hold]
    exact h.spares hlo (by rw [hmid]) (hq ▸ List.mem_append_right _ List.mem_cons_self) ht

theorem Laid.carve (hq : s.base :: frees start pre = A ++ [q]) (hn : 0 < n) (hnm : n ≤ m) :
    wp (carve n q lo m) s (fun p t => ∃ gs' a, p = a + headerSize ∧
      Carved start a n r (pre ++ ([⟨m, none⟩] ++ post)) gs' s t) E := by
  obtain ⟨y, C, hy⟩ := List.exists_cons_of_ne_nil (l := frees (lo + headerSize * m) post ++ [s.base]) (by simp)
  obtain ⟨hptrq, hptrlo⟩ := h.links_free hlo hq hy
  have hloin : (lo, ⟨m, none⟩) ∈ place start (pre ++ ([⟨m, none⟩] ++ post)) := by
    rw [place_append, ← hlo]
    exact List.mem_append_right _ List.mem_cons_self
  have hqin : q ∈ s.base :: frees start (pre ++ ([⟨m, none⟩] ++ post)) := by
    rw [frees_append, ← List.cons_append, hq]
    exact List.mem_append_left _ (List.mem_append_right _ List.mem_cons_self)
  have hmaplo : s.Mapped lo := h.mapped (place_header hloin)
  have hmapq : s.Mapped q := h.mapped (ring_sub hqin)
  have hsizelo : s.size lo = m := h.sizes _ hloin
  obtain ⟨hpre, hrest, hjoin⟩ := List.isChain_append.mp h.spaced
  obtain ⟨-, hpost, hhead⟩ := List.isChain_append.mp hrest
  have hqlt : q < lo := (h.prev_lt hlo (hq ▸ List.mem_append_right _ List.mem_cons_self)).2
  have hqlo : q + 8 ≤ lo := (h.apart (ring_sub hqin) (place_header hloin) (Nat.ne_of_lt hqlt)).resolve_right (by omega)
  have hmle : lo + headerSize * m ≤ s.sz := by
    rw [h.sz_eq, total_append, total_append, show total [⟨m, none⟩] = m from Nat.add_zero m]
    unfold headerSize at hlo ⊢
    omega
  have hm : lo + headerSize * m < kernbase := Nat.lt_of_le_of_lt hmle h.sz_lt
  have hylt : y < uint := hptrlo ▸ Nat.lt_of_lt_of_le word_lt (by decide)
  have hbefore : ∀ g ∈ pre.getLast?, ¬g.Free := fun g hg hf => hjoin g hg _ rfl ⟨hf, rfl⟩
  unfold Heap.carve
  by_cases hmn : m = n
  · subst hmn
    have hspaced : Spaced (pre ++ ([⟨m, some r⟩] ++ post)) := by
      refine List.isChain_append.mpr ⟨hpre, List.isChain_append.mpr ⟨List.isChain_singleton _, hpost, ?_⟩, ?_⟩
      · rintro g hg k - ⟨hf, -⟩
        cases Option.mem_some.mp hg
        cases hf
      · rintro g - k hk ⟨-, hf⟩
        cases Option.mem_some.mp hk
        cases hf
    rw [if_pos rfl, wp_bind, wp_getPtr hmaplo, hptrlo, wp_bind, wp_setPtr hmapq, wp_bind, wp_modify, wp_pure]
    refine ⟨pre ++ ([⟨m, some r⟩] ++ post), lo, add_eq (n := 1) (by unfold headerSize at hm ⊢; omega), ?_⟩
    refine h.carved hlo hq hy (Touches.refl.setPtr (.inl rfl) hmapq.fits).setFreep (Nat.add_zero m) (fun g hg => ?_) rfl
      (fun x hx => ?_) ?_ rfl hspaced
    · rw [List.mem_singleton.mp hg]
      exact hn
    · rw [List.mem_singleton.mp hx]
      exact (size_setPtr_of_apart hmaplo.fits (.inl hqlo)).trans hsizelo
    · exact List.isChain_pair.mpr (ptr_setPtr hylt)
  · generalize hq' : lo + headerSize * (m - n) = q'
    have hlen : q' + headerSize * n = lo + headerSize * m := by
      rw [← hq', Nat.add_assoc, ← Nat.mul_add, Nat.sub_add_cancel hnm]
    have hqq' : lo + 8 ≤ q' := by
      unfold headerSize at hq'
      omega
    have hq'fit : q' + headerSize ≤ lo + headerSize * m := by
      rw [← hlen]
      unfold headerSize
      omega
    have hfit' : Fits q' := Nat.le_of_lt (Nat.lt_of_le_of_lt hq'fit hm)
    have hmapq' : s.Mapped q' := ⟨Nat.le_trans hq'fit hmle, h.sz_le, h.sz_lt⟩
    have hadd : add lo (m - n) = q' := by
      rw [add_eq (by rw [hq']; unfold headerSize at hq'fit hm; omega), hq']
    have hmlt : m < uint := by
      have hk : kernbase < uint := by decide
      unfold headerSize at hm
      omega
    have hspaced : Spaced (pre ++ ([⟨m - n, none⟩, ⟨n, some r⟩] ++ post)) := by
      refine List.isChain_append.mpr ⟨hpre, List.isChain_append.mpr ⟨List.isChain_pair.mpr ?_, hpost, ?_⟩, ?_⟩
      · rintro ⟨-, hf⟩
        cases hf
      · rintro g hg k - ⟨hf, -⟩
        cases Option.mem_some.mp hg
        cases hf
      · exact fun g hg k _ hand => hbefore g hg hand.1
    rw [if_neg hmn, wp_bind, wp_setSize hmaplo, hadd, wp_bind, wp_setSize (mapped_setSize.mpr hmapq'), wp_bind, wp_modify,
      wp_pure]
    refine ⟨pre ++ ([⟨m - n, none⟩, ⟨n, some r⟩] ++ post), q', add_eq (n := 1) ?_, ?_⟩
    · unfold headerSize at hm hq'fit ⊢
      omega
    have hapart : Apart lo q' := .inl hqq'
    refine h.carved hlo hq hy ((Touches.refl.setSize ⟨Nat.le_refl lo, ?_⟩ hmaplo.fits).setSize
      ⟨Nat.le_trans (Nat.le_add_right lo 8) hqq', hq'fit⟩ hfit').setFreep (Nat.sub_add_cancel hnm) (fun g hg => ?_)
      (by rw [← hq']; rfl) (fun x hx => ?_) ?_ rfl hspaced
    · exact Nat.le_trans (Nat.add_le_add_right (Nat.le_trans (Nat.le_add_right lo 8) hqq') _) hq'fit
    · simp only [List.mem_cons, List.not_mem_nil, or_false] at hg
      rcases hg with rfl | rfl
      · exact Nat.sub_pos_of_lt (Nat.lt_of_le_of_ne hnm (Ne.symm hmn))
      · exact hn
    · have hplace : place lo [⟨m - n, none⟩, ⟨n, some r⟩] = [(lo, ⟨m - n, none⟩), (q', ⟨n, some r⟩)] := by rw [← hq']; rfl
      rw [hplace] at hx
      simp only [List.mem_cons, List.not_mem_nil, or_false] at hx
      rcases hx with rfl | rfl
      · exact (size_setSize_of_apart hfit' hmaplo.fits hapart.symm).trans (size_setSize (Nat.lt_of_le_of_lt (Nat.sub_le m n) hmlt))
      · exact size_setSize (Nat.lt_of_le_of_lt hnm hmlt)
    · refine List.isChain_cons_cons.mpr ⟨?_, List.isChain_pair.mpr ?_⟩
      · exact ((ptr_setSize_of_apart hfit' (.inr (by omega))).trans
          (ptr_setSize_of_apart hmaplo.fits (.inr hqlo))).trans hptrq
      · exact ((ptr_setSize_of_apart hfit' hapart.symm).trans (ptr_setSize hmaplo.fits)).trans hptrlo

end Carve

/-! ### The search -/

/-- The part of the search up to the node `y`. -/
theorem wp_walk (hl : Links s.ptr (x :: (l ++ [y]))) (hmap : ∀ c ∈ x :: (l ++ [y]), s.Mapped c) (hne : ∀ c ∈ l, c ≠ s.freep)
    (hbig : ∀ q p, q ∈ x :: l → p ∈ l → s.ptr q = p → nunits ≤ s.size p → wp (carve nunits q p (s.size p)) s Q E)
    (hend : (∀ c ∈ l, s.size c < nunits) → ∀ q ∈ x :: l, s.ptr q = y → wp (mallocLoop sbrk nunits k q y) s Q E) :
    wp (mallocLoop sbrk nunits (k + l.length) x (s.ptr x)) s Q E := by
  induction l generalizing x with
  | nil =>
    have hxy : s.ptr x = y := (List.isChain_cons_cons.mp hl).1
    rw [hxy]
    exact hend (fun c hc => absurd hc List.not_mem_nil) x List.mem_cons_self hxy
  | cons c l ih =>
    obtain ⟨hxc, hrest⟩ := List.isChain_cons_cons.mp hl
    have hmapc : s.Mapped c := hmap c (by simp)
    rw [hxc, List.length_cons, ← Nat.add_assoc, mallocLoop, wp_bind, wp_getSize hmapc, wp_ite]
    refine ⟨hbig x c List.mem_cons_self List.mem_cons_self hxc, fun hsmall => ?_⟩
    rw [wp_bind, wp_get, if_neg (hne c List.mem_cons_self), wp_bind, wp_getPtr hmapc]
    refine ih hrest (fun d hd => hmap d (List.mem_cons_of_mem _ hd)) (fun d hd => hne d (List.mem_cons_of_mem _ hd))
      (fun q p hq hp => hbig q p (List.mem_cons_of_mem _ hq) (List.mem_cons_of_mem _ hp)) fun hall q hq => ?_
    refine hend (fun d hd => ?_) q (List.mem_cons_of_mem _ hq)
    rcases List.mem_cons.mp hd with rfl | hd
    · exact Nat.not_le.mp hsmall
    · exact hall d hd

/-- There is a free block of `n` units. -/
def Room (start : Nat) (gs : List Block) (n : Nat) : Prop := ∃ x ∈ place start gs, x.2.Free ∧ n ≤ x.2.units

/-- A round of the list: either a block is taken, or there is none that is long enough. -/
theorem Laid.search (h : Laid start gs s) (hn : 0 < nunits) (hk : rounds / 4 ≤ k)
    (hbig : Room start gs nunits → ∀ gs' a p t, p = a + headerSize → Carved start a nunits r gs gs' s t → Q p t)
    (hnone : ¬Room start gs nunits → ∀ j, k ≤ j + rounds / 4 →
      wp (do
        let q ← morecore sbrk nunits
        if q = 0 then pure 0 else do mallocLoop sbrk nunits j q (← getPtr q)) s Q E) :
    wp (mallocLoop sbrk nunits k s.freep (s.ptr s.freep)) s Q E := by
  obtain ⟨m, hm, hperm⟩ := h.ring.rotate h.freep
  have hmap : ∀ c ∈ s.freep :: m, s.Mapped c := fun c hc => h.mapped (ring_sub (hperm.mem_iff.mp hc))
  have hnodup : (s.freep :: m).Nodup := hperm.nodup_iff.mpr h.ring_nodup
  have hlen : m.length < rounds / 4 := by
    have heq := hperm.length_eq
    rw [List.length_cons, List.length_cons] at heq
    exact Nat.succ.inj heq ▸ h.length_frees
  have htake : ∀ q p, q ∈ s.freep :: m → p ∈ s.freep :: m → s.ptr q = p → nunits ≤ s.size p →
      wp (Heap.carve nunits q p (s.size p)) s Q E := by
    intro q p hq hp hqp hle
    rcases List.mem_cons.mp (hperm.mem_iff.mp hp) with rfl | hp
    · rw [h.size_base] at hle
      omega
    · obtain ⟨pre, m, post, rfl, hlo⟩ := frees_split hp
      obtain ⟨A, q', hA⟩ : ∃ A q', s.base :: frees start pre = A ++ [q'] :=
        ⟨_, _, (List.dropLast_append_getLast (List.cons_ne_nil _ _)).symm⟩
      obtain ⟨y, C, hy⟩ := List.exists_cons_of_ne_nil (l := frees (p + headerSize * m) post ++ [s.base]) (by simp)
      have hq'in : q' ∈ s.base :: frees start (pre ++ ⟨m, none⟩ :: post) := by
        rw [frees_append, ← List.cons_append, hA]
        exact List.mem_append_left _ (List.mem_append_right _ List.mem_cons_self)
      have hqq' : q = q' := h.ring.pred_unique h.ring_nodup (hperm.mem_iff.mp hq) hq'in
        (hqp.trans (h.links_free hlo hA hy).1.symm)
      have hpin : (p, ⟨m, none⟩) ∈ place start (pre ++ ⟨m, none⟩ :: post) := by
        rw [place_append, ← hlo]
        exact List.mem_append_right _ List.mem_cons_self
      have hsize : s.size p = m := h.sizes _ hpin
      rw [hsize] at hle ⊢
      rw [hqq']
      refine wp_mono (h.carve (r := r) hlo hA hn hle) (fun v t ht => ?_) fun _ _ he => he
      obtain ⟨gs', a, hv, ht⟩ := ht
      exact hbig ⟨_, hpin, rfl, hle⟩ gs' a v t hv ht
  have hmapf := hmap s.freep List.mem_cons_self
  obtain ⟨j, rfl⟩ : ∃ j, k = j + 1 + m.length := ⟨k - m.length - 1, by omega⟩
  refine wp_walk (circular_cons.mp hm) (fun c hc => hmap c ?_) (fun c hc heq => ?_)
    (fun q p hq hp => htake q p hq (List.mem_cons_of_mem _ hp)) fun hall q hq hqf => ?_
  · rw [← List.cons_append, List.mem_append, List.mem_singleton] at hc
    exact hc.elim id fun heq => heq ▸ List.mem_cons_self
  · exact (List.nodup_cons.mp hnodup).1 (heq ▸ hc)
  · rw [mallocLoop, wp_bind, wp_getSize hmapf, wp_ite]
    refine ⟨fun hle => htake q s.freep hq List.mem_cons_self hqf hle, fun hsmall => ?_⟩
    rw [wp_bind, wp_get, if_pos rfl]
    refine hnone ?_ j (by omega)
    rintro ⟨x, hx, hfree, hle⟩
    have hxm : x.1 ∈ s.freep :: m := hperm.mem_iff.mpr (List.mem_cons_of_mem _ (mem_frees.mpr ⟨x.2, hx, hfree⟩))
    rw [← h.sizes x hx] at hle
    rcases List.mem_cons.mp hxm with heq | hxm
    · exact hsmall (heq ▸ hle)
    · exact Nat.not_le.mpr (hall _ hxm) hle

/-! ### More memory -/

/-- Memory from the end of the process on has been added to it. -/
structure Grown (n : Nat) (s t : Process) : Prop where
  sz : t.sz = s.sz + n
  sz_lt : t.sz < kernbase
  top_eq : t.top = pgroundup t.sz
  mem : ∀ a, a < s.sz → t.mem a = s.mem a
  base : t.base = s.base
  freep : t.freep = s.freep
  trail : t.trail = s.trail

/-- `sbrk` returns fresh memory behind the old end, or fails and changes nothing. -/
def Fresh (sbrk : Int → M Nat) (n : Int) : Prop := ∀ s : Process, 0 < s.sz → s.sz < kernbase → s.top = pgroundup s.sz →
  sbrk n s = .ok minusOne s ∨ 0 < n ∧ ∃ t, sbrk n s = .ok s.sz t ∧ Grown n.toNat s t

/-- What `morecore` leaves. -/
structure More (start n : Nat) (gs gs' : List Block) (s t : Process) : Prop where
  laid : Laid start gs' t
  live_iff : ∀ x, x ∈ lives start gs' ↔ x ∈ lives start gs
  spares : Spares (lives start gs) s t
  base : t.base = s.base
  room : Room start gs' n

/-- The new memory as a block. -/
theorem Laid.grown (h : Laid start gs s) (hg : Grown (headerSize * n) s t) (hn : 0 < n) :
    Laid start (gs ++ [⟨n, some r⟩]) (t.setSize s.sz n) := by
  have hend : s.sz = start + headerSize * total gs := h.sz_eq
  have hfit : Fits s.sz := by
    have hlt := hg.sz_lt
    rw [hg.sz] at hlt
    unfold headerSize at hlt
    unfold Fits
    omega
  have hnlt : n < uint := by
    have hlt := hg.sz_lt
    have hk : kernbase < uint := by decide
    rw [hg.sz] at hlt
    unfold headerSize at hlt
    omega
  have hold {a : Nat} (ha : a ∈ headers s.base start gs) :
      (t.setSize s.sz n).size a = s.size a ∧ (t.setSize s.sz n).ptr a = s.ptr a := by
    have hmap := h.mapped ha
    have hapart : Apart s.sz a := .inr hmap.1
    rw [size_setSize_of_apart hfit hmap.fits hapart, ptr_setSize_of_apart hfit hapart, size, size, ptr, ptr, hmap.fits.sizeAddr]
    have hle := hmap.1
    exact ⟨word_congr fun k _ hk => hg.mem k (by omega), word_congr fun k _ hk => hg.mem k (by omega)⟩
  have hplace : place start (gs ++ [⟨n, some r⟩]) = place start gs ++ [(s.sz, ⟨n, some r⟩)] := by
    rw [place_append, ← hend]
    rfl
  have hfrees : frees start (gs ++ [⟨n, some r⟩]) = frees start gs := by
    rw [frees_append]
    exact List.append_nil _
  exact {
    base_pos := hg.base ▸ h.base_pos
    base_le := hg.base ▸ h.base_le
    sz_eq := by
      rw [total_append, show total [⟨n, some r⟩] = n from Nat.add_zero n, Nat.mul_add, ← Nat.add_assoc, ← hend]
      exact hg.sz
    sz_lt := hg.sz_lt
    top_eq := hg.top_eq
    pos := fun g hin => (List.mem_append.mp hin).elim (h.pos g) fun hg => List.mem_singleton.mp hg ▸ hn
    sizes := fun x hx => by
      rw [hplace, List.mem_append] at hx
      rcases hx with hx | hx
      · rw [(hold (place_header hx)).1, h.sizes x hx]
      · rw [List.mem_singleton.mp hx]
        exact size_setSize hnlt
    size_base := by
      have hbase := (hold List.mem_cons_self).1
      rw [← hg.base] at hbase
      exact hbase.trans (hg.base ▸ h.size_base)
    ring := by
      have hring := circular_cons.mp h.ring
      have hcirc : Circular (t.setSize s.sz n).ptr (s.base :: frees start gs) := circular_cons.mpr
        (Links.congr (l := s.base :: frees start gs) hring fun a ha => (hold (ring_sub ha)).2)
      rw [hfrees]
      exact hg.base ▸ hcirc
    freep := by
      rw [hfrees]
      have hf := h.freep
      rw [← hg.base, ← hg.freep] at hf
      exact hf
    spaced := by
      refine List.isChain_append.mpr ⟨h.spaced, List.isChain_singleton _, ?_⟩
      rintro g - k hk ⟨-, hf⟩
      cases Option.mem_some.mp hk
      cases hf }

/-- What `morecore` asks `sbrk` for. -/
def asked (nu : Nat) : Int := toInt (request nu * headerSize % uint)

theorem asked_pos (hle : n ≤ 2 ^ 29) (hpos : 0 < asked n) : (asked n).toNat = headerSize * request n := by
  have hreq : request n ≤ 2 ^ 29 := by
    unfold request
    split <;> omega
  unfold asked toInt headerSize uint at *
  split at hpos
  · rename_i hlt
    by_cases heq : request n = 2 ^ 29
    · rw [heq] at hpos
      exact absurd hpos (by decide)
    · rw [if_pos hlt, Int.toNat_natCast, Nat.mod_eq_of_lt (by omega), Nat.mul_comm]
  · omega

theorem le_request : n ≤ request n := by
  unfold request
  split <;> omega

theorem Laid.morecore (h : Laid start gs s) (hfresh : Fresh sbrk (asked n)) (hn : 0 < n) (hle : n ≤ 2 ^ 29) :
    wp (morecore sbrk n) s (fun q t => q = 0 ∧ t = s ∧ sbrk (asked n) s = .ok minusOne s ∨
      q = t.freep ∧ q ≠ 0 ∧ sbrk (asked n) s ≠ .ok minusOne s ∧ ∃ gs', More start n gs gs' s t) E := by
  rw [Heap.morecore, wp_bind]
  rcases hfresh s h.sz_pos h.sz_lt h.top_eq with hfail | ⟨hpos, t, hok, hgrown⟩
  · refine wp_of_ok hfail ?_
    rw [if_pos rfl, wp_pure]
    exact .inl ⟨rfl, rfl, hfail⟩
  · rw [asked_pos hle hpos] at hgrown
    have hreq : 0 < request n := Nat.lt_of_lt_of_le hn le_request
    have hlaid : Laid start (gs ++ ⟨request n, some 0⟩ :: []) (t.setSize s.sz (request n)) := h.grown hgrown hreq
    have hend : s.sz = start + headerSize * total gs := h.sz_eq
    have hmap : (t.setSize s.sz (request n)).Mapped s.sz := by
      refine hlaid.mapped (place_header (x := (s.sz, ⟨request n, some 0⟩)) ?_)
      rw [place_append, ← hend]
      exact List.mem_append_right _ List.mem_cons_self
    have hne : s.sz ≠ minusOne := by
      have hlt := h.sz_lt
      have hk : kernbase < minusOne := by decide
      omega
    refine wp_of_ok hok ?_
    rw [if_neg hne, wp_bind, wp_setSize (mapped_setSize.mp hmap), wp_bind,
      add_eq (n := 1) (Nat.lt_of_le_of_lt hmap.1 hgrown.sz_lt)]
    refine wp_mono (wp_free hlaid (by simp [Block.Free]) hend) (fun _ u hu => ?_) fun _ _ he => he
    obtain ⟨gs', hu⟩ := hu
    rw [wp_bind, wp_get, wp_pure]
    have hlives : lives start (gs ++ [⟨request n, some 0⟩]) = lives start gs ++ [(s.sz, ⟨request n, some 0⟩)] := by
      rw [lives_append, ← hend]
      rfl
    have hlow : ∀ x ∈ lives start gs, x.1 + headerSize * x.2.units ≤ s.sz := fun x hx =>
      hend ▸ (place_bounds (mem_lives.mp hx).1).2
    have hlive : ∀ x, x ∈ lives start gs' ↔ x ∈ lives start gs := fun x => by
      rw [hu.live_iff, hlives, List.mem_append, List.mem_singleton]
      constructor
      · rintro ⟨hx | heq, hne⟩
        · exact hx
        · exact absurd heq hne
      · refine fun hx => ⟨.inl hx, fun heq => ?_⟩
        have hle := hlow x hx
        rw [heq] at hle
        unfold headerSize at hle
        dsimp only at hle
        omega
    have hsize : Spares (lives start gs) s (t.setSize s.sz (request n)) := by
      refine ⟨hgrown.sz ▸ Nat.le_add_right .., ⟨[(s.sz + 4) % uint], congrArg (_ :: ·) hgrown.trail, fun w hw => ?_⟩,
        fun x hx b _ hlt => ?_⟩
      · rw [List.mem_singleton.mp hw, hmap.fits.sizeAddr]
        exact ⟨hmap.1, fun x hx => .inr ((hlow x hx).trans (Nat.le_add_right ..))⟩
      · have hb := Nat.lt_of_lt_of_le hlt (hlow x hx)
        rw [Process.setSize, hmap.fits.sizeAddr]
        exact (put_out (by omega)).trans (hgrown.mem b hb)
    have hgave : sbrk (asked n) s ≠ .ok minusOne s := by
      rw [hok]
      exact fun heq => hne (EStateM.Result.ok.inj heq).1
    refine .inr ⟨rfl, hu.laid.freep_ne_zero, hgave, gs', hu.laid, hlive, ?_, hu.base.trans hgrown.base, ?_⟩
    · exact hsize.trans (hu.spares.mono fun x hx => (hlive x).mpr hx)
    · obtain ⟨x, hx, hfree, hroom⟩ := hu.room
      exact ⟨x, hx, hfree, le_request.trans hroom⟩

/-! ### The call -/

/-- A process that has not called `malloc`. -/
structure Raw (start : Nat) (s : Process) : Prop where
  freep : s.freep = 0
  base_pos : 0 < s.base
  base_le : s.base + headerSize ≤ start
  sz_eq : s.sz = start
  sz_lt : s.sz < kernbase
  top_eq : s.top = pgroundup s.sz

/-- The heap before the first call and behind any other. -/
def Ready (start : Nat) (gs : List Block) (s : Process) : Prop := Laid start gs s ∨ gs = [] ∧ Raw start s

/-- A block of `n` units at `a` has been handed out. -/
structure Served (start a n r : Nat) (gs gs' : List Block) (s t : Process) : Prop where
  laid : Laid start gs' t
  live_iff : ∀ x, x ∈ lives start gs' ↔ x ∈ lives start gs ∨ x = (a, ⟨n, some r⟩)
  clear : ∀ x ∈ lives start gs, Clear x (a, ⟨n, some r⟩)
  spares : Spares (lives start gs) s t

theorem Carved.served (h : Carved start a n r gs gs' s t) : Served start a n r gs gs' s t :=
  ⟨h.laid, h.live_iff, h.clear, h.spares⟩

theorem More.carved {gs'' : List Block} (hm : More start m gs gs' s t) (hc : Carved start a n r gs' gs'' t u) :
    Served start a n r gs gs'' s u where
  laid := hc.laid
  live_iff x := by rw [hc.live_iff, hm.live_iff]
  clear x hx := hc.clear x ((hm.live_iff x).mpr hx)
  spares := hm.spares.trans (hc.spares.mono fun x hx => (hm.live_iff x).mpr hx)

theorem Laid.mallocLoop (h : Laid start gs s) (hn : 0 < n) (hle : n ≤ 2 ^ 29) (hfresh : Fresh sbrk (asked n)) :
    wp (mallocLoop sbrk n rounds s.freep (s.ptr s.freep)) s
      (fun p t => p = 0 ∧ t = s ∧ ¬Room start gs n ∧ sbrk (asked n) s = .ok minusOne s ∨
        ∃ gs' a, p = a + headerSize ∧ Served start a n r gs gs' s t ∧
          (Room start gs n ∨ sbrk (asked n) s ≠ .ok minusOne s)) E := by
  refine h.search (r := r) hn (Nat.div_le_self rounds 4)
    (fun hroom gs' a p t hp hc => .inr ⟨gs', a, hp, hc.served, .inl hroom⟩) fun hnone j hj => ?_
  refine wp_seq (h.morecore hfresh hn hle) fun q t ht => ?_
  rcases ht with ⟨rfl, rfl, hfail⟩ | ⟨rfl, hne, hgave, gs', hm⟩
  · rw [if_pos rfl, wp_pure]
    exact .inl ⟨rfl, rfl, hnone, hfail⟩
  · rw [if_neg hne, wp_bind, wp_getPtr (hm.laid.mapped (ring_sub hm.laid.freep))]
    -- there is a block now that is long enough
    refine hm.laid.search (r := r) hn ?_ (fun _ gs'' a p u hp hc => .inr ⟨gs'', a, hp, hm.carved hc, .inr hgave⟩)
      fun hnone => absurd hm.room hnone
    change 2 ^ 30 / 4 ≤ j
    have hle : 2 ^ 30 ≤ j + 2 ^ 30 / 4 := hj
    omega

theorem Ready.initList (h : Ready start gs s) : wp initList s (fun _ t => Laid start gs t ∧ t.sz = s.sz ∧ t.top = s.top ∧
    Spares (lives start gs) s t) E := by
  rw [Heap.initList, wp_bind, wp_get]
  rcases h with h | ⟨rfl, h⟩
  · rw [if_neg h.freep_ne_zero, wp_pure]
    exact ⟨h, rfl, rfl, .refl⟩
  · have hmap : s.Mapped s.base := ⟨h.sz_eq ▸ h.base_le, h.top_eq ▸ le_pgroundup s.sz, h.sz_lt⟩
    rw [if_pos h.freep, wp_bind, wp_setPtr hmap, wp_bind, wp_modify]
    generalize hu : ({ s.setPtr s.base s.base with freep := (s.setPtr s.base s.base).base } : Process) = u
    have hmapu : u.Mapped s.base := hu ▸ hmap
    rw [wp_setSize hmapu]
    have hbase : u.base = s.base := hu ▸ rfl
    have hptr : (u.setSize s.base 0).ptr s.base = s.base := by
      rw [ptr_setSize hmap.fits, ← hu]
      exact ptr_setPtr hmap.fits.lt
    refine ⟨?_, hu ▸ rfl, hu ▸ rfl, ?_⟩
    · exact {
        base_pos := hbase ▸ h.base_pos
        base_le := hbase ▸ h.base_le
        sz_eq := hu ▸ h.sz_eq
        sz_lt := hu ▸ h.sz_lt
        top_eq := hu ▸ h.top_eq
        pos := fun g hg => absurd hg List.not_mem_nil
        sizes := fun x hx => absurd hx List.not_mem_nil
        size_base := by
          show (u.setSize s.base 0).size u.base = 0
          rw [hbase]
          exact size_setSize (by decide)
        ring := by
          show Circular (u.setSize s.base 0).ptr [u.base]
          rw [hbase]
          exact circular_cons.mpr (List.isChain_pair.mpr hptr)
        freep := by
          show u.freep ∈ [u.base]
          rw [hbase, ← hu]
          exact List.mem_singleton_self _
        spaced := List.isChain_nil }
    · refine ⟨hu ▸ Nat.le_refl _, ⟨[(s.base + 4) % uint, s.base], by rw [← hu]; rfl, fun w hw => ⟨?_, fun x hx => ?_⟩⟩,
        fun x hx => absurd hx List.not_mem_nil⟩
      · have hle : s.base + 8 ≤ u.sz := hu ▸ hmap.1
        rw [hmap.fits.sizeAddr] at hw
        simp only [List.mem_cons, List.not_mem_nil, or_false] at hw
        show w + 4 ≤ u.sz
        omega
      · exact absurd hx List.not_mem_nil

theorem unitsOf_bounds (n : Nat) : 0 < unitsOf n ∧ unitsOf n ≤ 2 ^ 29 := by
  have hlt : (n + headerSize - 1) % uint < 2 ^ 32 := Nat.mod_lt _ (by decide)
  unfold unitsOf
  generalize (n + headerSize - 1) % uint = x at *
  unfold headerSize
  omega

theorem Ready.malloc {nbytes : Nat} (h : Ready start gs s) (hfresh : Fresh sbrk (asked (unitsOf nbytes))) :
    wp (malloc sbrk nbytes) s (fun p t =>
      (p = 0 ∧ Ready start gs t ∧ t.sz = s.sz ∧ Spares (lives start gs) s t ∧ ¬Room start gs (unitsOf nbytes) ∧
        sbrk (asked (unitsOf nbytes)) t = .ok minusOne t) ∨
      ∃ gs' a, p = a + headerSize ∧ Served start a (unitsOf nbytes) nbytes gs gs' s t ∧ (Room start gs (unitsOf nbytes) ∨
        ∃ t₀, Laid start gs t₀ ∧ t₀.sz = s.sz ∧ sbrk (asked (unitsOf nbytes)) t₀ ≠ .ok minusOne t₀)) E := by
  obtain ⟨hpos, hle⟩ := unitsOf_bounds nbytes
  rw [Heap.malloc]
  refine wp_seq h.initList fun _ t ht => ?_
  obtain ⟨ht, hsz, -, hspares⟩ := ht
  rw [wp_bind, wp_get, wp_bind, wp_getPtr (ht.mapped (ring_sub ht.freep))]
  refine wp_mono (ht.mallocLoop (r := nbytes) hpos hle hfresh) (fun p u hu => ?_) fun _ _ he => he
  rcases hu with ⟨rfl, rfl, hnone, hfail⟩ | ⟨gs', a, hp, hu, hwhy⟩
  · exact .inl ⟨rfl, .inl ht, hsz, hspares, hnone, hfail⟩
  · exact .inr ⟨gs', a, hp, ⟨hu.laid, hu.live_iff, hu.clear, hspares.trans hu.spares⟩,
      hwhy.imp_right fun hgave => ⟨t, ht, hsz, hgave⟩⟩

end Xv6.Heap
