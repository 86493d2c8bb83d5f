import AdvancedXv6.Disk.Alloc

/-! What `readi` and `writei` do to the content of inodes. -/

namespace Xv6.Disk
open Function Effect Bytes
variable {I : Nat → Prop} {s t u : Fs} {i j a c n off p q bn k rounds : Nat} {x : Block} {src : Nat → UInt8}

namespace Fs

section Store
variable (h : Held I s) (hi : I i) (ha : s.addr i (place bn) = a) (h0 : a ≠ 0) (x : Block)
include h hi ha h0

theorem Held.store_dinode (hj : j < ninodes) : (s.setBlk a x).dinode j = s.dinode j := by
  have hrange := h.range i _ hi (ha ▸ h0)
  rw [ha] at hrange
  have hle := bmapstart_le
  have hiblock := iblock_range hj
  unfold dinode
  rw [setBlk_of_ne (by omega)]

theorem Held.store_node (hj : j < ninodes) : (s.setBlk a x).node j = s.node j := by
  unfold node
  rw [h.store_dinode hi ha h0 x hj]
  rfl

theorem Held.store_addr (hj : I j) (q : Nat) : (s.setBlk a x).addr j q = s.addr j q := by
  unfold addr
  rw [h.store_node hi ha h0 x (h.number j hj)]
  refine Dinode.addr_congr rfl (fun hd => setBlk_of_ne (fun heq => ?_) s x) q
  have hsame : s.addr j ndirect = s.addr i (place bn) := by
    rw [ha, ← heq]
    exact Dinode.addr_direct (Nat.le_refl _)
  have hne : s.addr j ndirect ≠ 0 := by
    rw [hsame, ha]
    exact h0
  exact place_ne bn (h.unique j ndirect i _ hj hi hne hsame).2.symm

/-- A data block of an inode is changed. -/
theorem Held.store :
    Grows I i s (s.setBlk a x) ∧ ∀ j k, I j →
      (s.setBlk a x).byte j k = if j = i ∧ k / bsize = bn then x (k % bsize) else s.byte j k := by
  have hrange := h.range i _ hi (ha ▸ h0)
  rw [ha] at hrange
  have hle := bmapstart_le
  have hdinode := fun j hj => h.store_dinode (j := j) hi ha h0 x hj
  have hnode := fun j hj => h.store_node (j := j) hi ha h0 x hj
  have haddr := fun j q hj => h.store_addr (j := j) hi ha h0 x hj q
  have hbit : ∀ c, c < fsSize → (s.setBlk a x).bit c = s.bit c := by
    intro c hc
    have hmap := bblock_range hc
    unfold bit
    rw [setBlk_of_ne (by omega)]
  refine ⟨⟨⟨h.number, ?_, ?_, ?_, ?_⟩, ?_, ?_, ?_, ?_, ?_, hdinode, rfl, rfl, rfl, fun _ => id⟩, ?_⟩
  · intro j q hj hq
    rw [haddr j q hj] at hq ⊢
    exact h.range j q hj hq
  · intro j q j' q' hj hj' hq heq
    rw [haddr j q hj] at hq heq
    rw [haddr j' q' hj'] at heq
    exact h.unique j q j' q' hj hj' hq heq
  · intro j q hj hq
    rw [haddr j q hj] at hq ⊢
    rw [hbit _ (h.range j q hj hq).2]
    exact h.set j q hj hq
  · intro c hc
    rw [hbit c (Nat.lt_of_lt_of_le hc hle.2.2)]
    exact h.reserved c hc
  · exact fun j hj _ => hnode j hj
  · rw [hnode i (h.number i hi)]
  · exact fun j q hj _ => haddr j q hj
  · exact fun j q hj _ => haddr j q hj
  · intro c _ hc hset
    rw [hbit c hc] at hset
    exact .inl hset
  · intro j k hj
    unfold byte
    rw [haddr j _ hj]
    by_cases hjk : j = i ∧ k / bsize = bn
    · obtain ⟨rfl, rfl⟩ := hjk
      rw [ha, if_neg h0, setBlk_self]
      exact (if_pos ⟨rfl, rfl⟩).symm
    · rw [if_neg hjk]
      by_cases hq : s.addr j (place (k / bsize)) = 0
      · rw [if_pos hq, if_pos hq]
      · rw [if_neg hq, if_neg hq, setBlk_of_ne]
        intro heq
        obtain ⟨hji, hplace⟩ := h.unique j _ i _ hj hi hq (heq.trans ha.symm)
        exact hjk ⟨hji, place_inj hplace⟩

end Store

/-- The bytes from `off` on are `src`. -/
def Puts (I : Nat → Prop) (i : Nat) (src : Nat → UInt8) (off n : Nat) (s t : Fs) : Prop := ∀ j k, I j →
  t.byte j k = if j = i ∧ off ≤ k ∧ k < off + n then src (k - off) else s.byte j k

/-- The blocks of these bytes are allocated. -/
def Filled (i off n : Nat) (s : Fs) : Prop := ∀ k, off ≤ k → k < off + n → s.addr i (place (k / bsize)) ≠ 0

theorem Puts.zero (I : Nat → Prop) (i : Nat) (src : Nat → UInt8) (off : Nat) (s : Fs) : Puts I i src off 0 s s :=
  fun _ _ _ => (if_neg (by omega)).symm

theorem Filled.zero (i off : Nat) (s : Fs) : Filled i off 0 s :=
  fun _ hlow hhigh => absurd hlow (Nat.not_le_of_lt hhigh)

/-- Bytes that are put after others. -/
theorem Puts.append {m : Nat} (h : ∀ j k, I j → t.byte j k =
    if j = i ∧ off ≤ k ∧ k < off + m then src (k - off) else s.byte j k)
    (h' : Puts I i (fun k => src (k + m)) (off + m) (n - m) t u) (hm : m ≤ n) : Puts I i src off n s u := by
  intro j k hj
  rw [h' j k hj, h j k hj]
  by_cases hin : j = i ∧ off ≤ k ∧ k < off + n
  · rw [if_pos hin]
    by_cases hlow : k < off + m
    · rw [if_neg (by omega), if_pos ⟨hin.1, hin.2.1, hlow⟩]
    · rw [if_pos ⟨hin.1, by omega, by omega⟩]
      exact congrArg src (by omega)
  · rw [if_neg hin, if_neg fun hand => hin (by omega), if_neg fun hand => hin (by omega)]

end Fs

/-- The bytes from `off` on that are in its block. -/
theorem in_block {m : Nat} (hm : m ≤ bsize - off % bsize) : (k / bsize = off / bsize ∧ off % bsize ≤ k % bsize ∧
    k % bsize < off % bsize + m) ↔ off ≤ k ∧ k < off + m := by
  change m ≤ 512 - off % 512 at hm
  change (k / 512 = off / 512 ∧ off % 512 ≤ k % 512 ∧ k % 512 < off % 512 + m) ↔ _
  omega

/-- Bytes that are put into the block that they belong to. -/
theorem Fs.Held.put_bytes {m : Nat} (h : Held I t) (hi : I i) (ha : t.addr i (place (off / bsize)) = a) (h0 : a ≠ 0)
    (hk : s.Keeps I t) (src : Nat → UInt8) (hm : m ≤ bsize - off % bsize) (j k : Nat) (hj : I j) :
    (t.setBlk a (put (t.blk a) (off % bsize) src m)).byte j k =
      if j = i ∧ off ≤ k ∧ k < off + m then src (k - off) else s.byte j k := by
  rw [(h.store hi ha h0 _).2 j k hj, ← hk j k hj]
  by_cases hji : j = i
  · subst hji
    by_cases hblock : k / bsize = off / bsize
    · rw [if_pos ⟨rfl, hblock⟩]
      by_cases hin : off ≤ k ∧ k < off + m
      · rw [if_pos ⟨rfl, hin⟩]
        obtain ⟨-, hlow, hhigh⟩ := (in_block hm).mpr hin
        rw [put_in hlow hhigh]
        congr 1
        change k / 512 = off / 512 at hblock
        change k % 512 - off % 512 = k - off
        omega
      · rw [if_neg fun hand => hin hand.2, put_out (by have := (in_block (k := k) hm).mp; omega)]
        unfold Fs.byte
        rw [hblock, ha, if_neg h0]
    · rw [if_neg fun hand => hblock hand.2, if_neg fun hand => hblock ((in_block hm).mpr hand.2).1]
  · rw [if_neg fun hand => hji hand.1, if_neg fun hand => hji hand.1]

theorem off_lt (off : Nat) : off % bsize < bsize := Nat.mod_lt off (by decide)

theorem block_lt (h : off < maxFile * bsize) : off / bsize < maxFile :=
  Nat.div_lt_of_lt_mul (Nat.mul_comm maxFile bsize ▸ h)

/-- The bytes of one block, and the bytes after them. -/
theorem readLoop_bytes {m : Nat} (hm : m ≤ bsize - off % bsize) (hmn : m ≤ n) (h0 : s.addr i (place (off / bsize)) ≠ 0) :
    (List.range n).map (fun k => s.byte i (off + k)) =
      (List.range m).map (fun k => s.blk (s.addr i (place (off / bsize))) (off % bsize + k)) ++
        (List.range (n - m)).map fun k => s.byte i (off + m + k) := by
  obtain ⟨r, rfl⟩ := Nat.exists_eq_add_of_le hmn
  rw [List.range_add, List.map_append, List.map_map, Nat.add_sub_cancel_left]
  congr 1
  · apply List.map_congr_left
    intro k hkm
    rw [List.mem_range] at hkm
    obtain ⟨hblock, hlow, -⟩ := (in_block (k := off + k) hm).mpr (by omega)
    unfold Fs.byte
    rw [hblock, if_neg h0]
    congr 1
    change (off + k) / 512 = off / 512 at hblock
    change (off + k) % 512 = off % 512 + k
    omega
  · apply List.map_congr_left
    intro k _
    rw [comp_apply, Nat.add_assoc]

section Spec
variable {E : Panic → Fs → Prop} (hE : ∀ t, t.Full → E .balloc t)
include hE

theorem wp_writeLoop {Q : Nat → Fs → Prop} (hs : s.Held I) (hout : 1 ≤ s.outstanding) (hi : I i)
    (hv : s.valid i = true) (hn : n ≤ rounds) (hmax : off + n ≤ maxFile * bsize)
    (hQ : ∀ t, s.Grows I i t → s.Puts I i src off n t → t.Filled i off n → Q (off + n) t) :
    wp (writeLoop i rounds src off n) s Q E := by
  induction rounds generalizing s src off n Q with
  | zero =>
    obtain rfl := Nat.le_zero.mp hn
    rw [writeLoop, wp_pure]
    exact hQ s (.refl hs i) (Fs.Puts.zero I i src off s) (Fs.Filled.zero i off s)
  | succ rounds ih =>
    rw [writeLoop, wp_ite]
    refine ⟨fun hz => ?_, fun hz => ?_⟩
    · subst hz
      rw [wp_pure]
      exact hQ s (.refl hs i) (Fs.Puts.zero I i src off s) (Fs.Filled.zero i off s)
    rw [wp_bind]
    apply wp_bmap hs hout hE hi hv (block_lt (by omega))
    intro a t hg hk ha h0
    obtain ⟨m, hm⟩ : ∃ m, m = min n (bsize - off % bsize) := ⟨_, rfl⟩
    have hmod := off_lt off
    have hmle : m ≤ bsize - off % bsize := by omega
    have hg' := (hg.held.store hi ha h0 (put (t.blk a) (off % bsize) src m)).1
    have hvt : t.valid i = true := by rw [hg.valid]; exact hv
    have hbyte := hg.held.put_bytes hi ha h0 hk src hmle
    dsimp only
    rw [wp_bind, wp_get, wp_bind, ← hm]
    refine wp_logWrite (s := t) (hg.outstanding ▸ hout) ?_
    have hmn : m ≤ n := by omega
    have hmpos : 0 < m := by omega
    have hsum : off + m + (n - m) = off + n := by omega
    apply ih (s := t.setBlk a _) hg'.held (hg.outstanding ▸ hout) hvt (by omega) (by omega)
    intro u hgu hputs hfilled
    rw [hsum]
    refine hQ u ((hg.trans hg' hi).trans hgu hi) (.append hbyte hputs hmn) fun k hlow hhigh => ?_
    by_cases hin : k < off + m
    · obtain ⟨hblock, -⟩ := (in_block hmle).mpr ⟨hlow, hin⟩
      have hnow := hg'.kept i (place (off / bsize)) hi (by rw [ha]; exact h0)
      rw [ha] at hnow
      rw [hblock, hgu.kept i _ hi (by rw [hnow]; exact h0), hnow]
      exact h0
    · exact hfilled k (by omega) (by omega)

end Spec

/-! ### Files without holes -/

section Present
variable {E : Panic → Fs → Prop} (hv : s.valid i = true)
include hv

theorem wp_bmap_present {Q : Nat → Fs → Prop} (h0 : s.addr i (place bn) ≠ 0) (hQ : Q (s.addr i (place bn)) s) :
    wp (bmap i bn) s Q E := by
  have hnode := Fs.node_eq hv
  unfold bmap
  rw [wp_ite]
  refine ⟨fun hdir => ?_, fun hdir => ?_⟩
  · have haddr : s.addr i (place bn) = (s.ip i).addrs bn := by
      unfold Fs.addr
      rw [place, if_pos hdir, Dinode.addr_direct (Nat.le_of_lt hdir), hnode]
    rw [haddr] at h0 hQ
    unfold direct
    rw [wp_bind, wp_get, wp_ite]
    refine ⟨fun hz => absurd hz h0, fun _ => ?_⟩
    rw [wp_pure]
    exact hQ
  · have hplace : place bn = ndirect + 1 + (bn - ndirect) := by
      rw [place, if_neg hdir]
      omega
    have hle : place bn ≤ ndirect + nindirect ∧ (s.ip i).addrs ndirect ≠ 0 := by
      by_contra hnot
      refine h0 ?_
      unfold Fs.addr Dinode.addr
      rw [hnode, if_neg (by omega), if_neg hnot]
    rw [wp_ite]
    refine ⟨fun hj => ?_, fun hj => absurd hj (by omega)⟩
    have haddr : s.addr i (place bn) = word (s.blk ((s.ip i).addrs ndirect)) (4 * (bn - ndirect)) 4 := by
      unfold Fs.addr
      rw [hplace, hnode, Dinode.addr_indirect hj hle.2]
    rw [haddr] at h0 hQ
    unfold direct
    rw [wp_bind, wp_bind, wp_get, wp_ite]
    refine ⟨fun hz => absurd hz hle.2, fun _ => ?_⟩
    rw [wp_pure]
    unfold indirect
    rw [wp_bind, wp_get, wp_ite]
    refine ⟨fun hz => absurd hz h0, fun _ => ?_⟩
    rw [wp_pure]
    exact hQ

/-- Reading blocks that are there changes nothing, in a transaction or outside. -/
theorem wp_readLoop_present {Q : List UInt8 → Fs → Prop} (hfilled : s.Filled i off n) (hn : n ≤ rounds)
    (hQ : Q ((List.range n).map fun k => s.byte i (off + k)) s) : wp (readLoop i rounds off n) s Q E := by
  induction rounds generalizing off n Q with
  | zero =>
    obtain rfl := Nat.le_zero.mp hn
    rw [readLoop, wp_pure]
    exact hQ
  | succ rounds ih =>
    rw [readLoop, wp_ite]
    refine ⟨fun hz => ?_, fun hz => ?_⟩
    · subst hz
      rw [wp_pure]
      exact hQ
    have hpresent := hfilled off (Nat.le_refl _) (by omega)
    rw [wp_bind]
    apply wp_bmap_present hv hpresent
    obtain ⟨m, hm⟩ : ∃ m, m = min n (bsize - off % bsize) := ⟨_, rfl⟩
    have hmod := off_lt off
    dsimp only
    rw [wp_bind, wp_get, wp_bind, ← hm]
    apply ih (fun k hlow hhigh => hfilled k (by omega) (by omega)) (by omega)
    rw [wp_pure, ← readLoop_bytes (by omega) (by omega) hpresent]
    exact hQ

theorem wp_readi_present {Q : Option (List UInt8) → Fs → Prop} {io : Option (List UInt8)} (hn : n < 2 ^ 32)
    (hsize : (s.ip i).size < 2 ^ 32) (hdev : (s.ip i).type = tDev → Q io s)
    (hno : ¬(off ≤ (s.ip i).size ∧ off + n < 2 ^ 32) → Q none s)
    (hyes : off ≤ (s.ip i).size → off + n < 2 ^ 32 → s.Filled i off (min n ((s.ip i).size - off)) ∧
      Q (some ((List.range (min n ((s.ip i).size - off))).map fun k => s.byte i (off + k))) s) :
    wp (readi i off n io) s Q E := by
  unfold readi
  rw [wp_bind, wp_get, wp_ite]
  refine ⟨fun htype => (wp_pure _).mpr (hdev htype), fun _ => ?_⟩
  rw [wp_ite]
  refine ⟨fun hbad => (wp_pure _).mpr (hno (by omega)), fun hgood => ?_⟩
  have hmin : (if (s.ip i).size < (off + n) % 2 ^ 32 then (s.ip i).size - off else n) = min n ((s.ip i).size - off) := by
    split <;> omega
  obtain ⟨hfilled, hQ⟩ := hyes (by omega) (by omega)
  rw [wp_bind, hmin]
  apply wp_readLoop_present hv hfilled (Nat.le_refl _)
  exact (wp_pure _).mpr hQ

theorem wp_writeLoop_present {Q : Nat → Fs → Prop} (hs : s.Held I) (hi : I i) (hout : 1 ≤ s.outstanding)
    (hfilled : s.Filled i off n) (hn : n ≤ rounds) (hQ : ∀ t, t.ip = s.ip → Q (off + n) t) :
    wp (writeLoop i rounds src off n) s Q E := by
  induction rounds generalizing s src off n Q with
  | zero =>
    obtain rfl := Nat.le_zero.mp hn
    rw [writeLoop, wp_pure]
    exact hQ s rfl
  | succ rounds ih =>
    rw [writeLoop, wp_ite]
    refine ⟨fun hz => ?_, fun hz => ?_⟩
    · subst hz
      rw [wp_pure]
      exact hQ s rfl
    have hpresent := hfilled off (Nat.le_refl _) (by omega)
    rw [wp_bind]
    apply wp_bmap_present hv hpresent
    dsimp only
    rw [wp_bind, wp_get, wp_bind]
    apply wp_logWrite hout
    obtain ⟨hg, -⟩ := hs.store hi rfl hpresent (put (s.blk (s.addr i (place (off / bsize)))) (off % bsize) src
      (min n (bsize - off % bsize)))
    have hmod := off_lt off
    have hsum : off + min n (bsize - off % bsize) + (n - min n (bsize - off % bsize)) = off + n := by omega
    refine ih (s := s.setBlk _ _) hv hg.held hout (fun k hlow hhigh => ?_) (by omega) (hsum ▸ hQ)
    have hk := hfilled k (by omega) (by omega)
    rw [hg.kept i _ hi hk]
    exact hk

end Present

end Xv6.Disk
