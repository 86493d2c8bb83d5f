import AdvancedXv6.Disk.Sound

/-! Allocation, the last reference, and writing keep the invariant; reading changes nothing. -/

namespace Xv6.Disk
open Function Effect Bytes Fs
variable {H : List Nat} {s t u : Fs} {i j a b c n off p q bn k : Nat} {x : Block} {src : Nat → UInt8} {dev : Bool}
  {io : Option (List UInt8)}

/-! ### Allocation -/

/-- The inode that `ialloc` writes. -/
def fresh (type : Nat) : Dinode := ⟨type, 0, 0, 0, 0, fun _ => 0⟩

theorem fresh_fits {type : Nat} (h : type < 2 ^ 16) : (fresh type).Fits :=
  ⟨h, Nat.two_pow_pos 16, Nat.two_pow_pos 16, Nat.two_pow_pos 16, Nat.two_pow_pos 32, fun _ => Nat.two_pow_pos 32, fun _ _ => rfl⟩

theorem Fs.Good.ialloc {type : Nat} (h : s.Good H) (hi : i < ninodes) (hfree : (s.dinode i).type = 0)
    (hfit : type < 2 ^ 16) : (s.stored i (fresh type)).Good H ∧ s.Stays H (s.stored i (fresh type)) := by
  obtain ⟨t, ht⟩ : ∃ t, t = s.stored i (fresh type) := ⟨_, rfl⟩
  have hcold : ∀ j, s.valid j = true → j ≠ i := by
    rintro j hj rfl
    have hlive := h.live j hj
    rw [← (h.synced j hj).2] at hlive
    exact hlive hfree
  have hself : t.dinode i = fresh type := by
    rw [ht]
    exact stored_self (fresh_fits hfit)
  have hdinode : ∀ j, j ≠ i → t.dinode j = s.dinode j := by
    intro j hj
    rw [ht, stored_dinode hj]
  have hvalid : t.valid = s.valid := by rw [ht]; rfl
  have hip : t.ip = s.ip := by rw [ht]; rfl
  have hnode : ∀ j, j ≠ i → t.node j = s.node j := by
    intro j hj
    unfold node
    rw [hvalid, hip, hdinode j hj]
  have hnodei : t.node i = fresh type := by
    unfold node
    rw [if_neg fun hv => hcold i (hvalid ▸ hv) rfl, hself]
  have hblk : ∀ a, nmeta ≤ a → t.blk a = s.blk a := by
    intro a ha
    rw [ht, stored_blk hi (.inr (Nat.le_trans bmapstart_le.2.1 ha))]
  have hbit : ∀ c, c < fsSize → t.bit c = s.bit c := by
    intro c hc
    rw [ht, stored_bit hi hc]
  have hsame : Same (fun j => s.Alloc j ∧ j ≠ i) s t := ⟨fun j hj => by rw [hnode j hj.2], hblk⟩
  have hothers := h.exact.held.subset (J := fun j => s.Alloc j ∧ j ≠ i) fun j hj => hj.1
  have halloc : ∀ j, j ≠ i → (t.Alloc j ↔ s.Alloc j) := by
    intro j hj
    unfold Alloc
    rw [hnode j hj]
  have hempty : ∀ q, t.addr i q = 0 := by
    intro q
    unfold addr
    rw [hnodei]
    exact Dinode.addr_zero fun _ _ => rfl
  rw [← ht]
  refine ⟨⟨h.build (fun j hj => ?_) (fun j q hj hq => ?_) (fun b hb => ?_) (fun b hb hlt hset => ?_) (fun j hj => ?_)
    (fun j hj => ?_) ?_, ?_⟩, fun j _ hv => ?_, ?_⟩
  · by_cases hji : j = i
    · subst hji
      rw [hnodei]
      exact .inr ⟨rfl, hempty⟩
    · have hj' := (halloc j hji).mp hj
      rw [hnode j hji]
      exact .inl ⟨hj', rfl, rfl, hothers.addr_same hsame ⟨hj', hji⟩, hothers.byte_same hsame ⟨hj', hji⟩⟩
  · have hji : j ≠ i := by
      rintro rfl
      exact hq (hempty q)
    have hj' := (halloc j hji).mp hj
    rw [hothers.addr_same hsame ⟨hj', hji⟩] at hq ⊢
    rw [hbit _ (h.exact.held.range j q hj' hq).2]
    exact h.exact.held.set j q hj' hq
  · rw [hbit b (Nat.lt_of_lt_of_le hb bmapstart_le.2.2)]
    exact h.exact.held.reserved b hb
  · rw [hbit b hlt] at hset
    obtain ⟨j, q, hj, hq⟩ := h.exact.tight b hb hlt hset
    have hji : j ≠ i := by
      rintro rfl
      exact hj.2 (by rw [h.node_eq_dinode, hfree])
    exact ⟨j, q, (halloc j hji).mpr hj, (hothers.addr_same hsame ⟨hj, hji⟩ q).trans hq⟩
  · rw [hvalid] at hj
    rw [hdinode j (hcold j hj), hip]
    exact h.synced j hj
  · rw [hvalid] at hj
    rw [hip]
    exact h.live j hj
  · rw [ht]
    exact h.refs
  · rw [ht]
    exact h.owned
  · rw [hvalid, hip]
    exact ⟨hv, rfl⟩
  · rw [ht]
    rfl

theorem wp_ialloc {type : Nat} (h : s.Good H) (hout : 1 ≤ s.outstanding) (hfit : type < 2 ^ 16) :
    wp (ialloc type) s (fun i t => t.Good (i :: H) ∧ s.Stays H t) Harmless := by
  unfold ialloc
  rw [wp_bind, wp_get]
  cases hfind : (List.range' 1 (sb.ninodes - 1)).find? fun i => (s.dinode i).type = 0 with
  | none => exact (wp_throw _).mpr ⟨by decide, by decide, by decide⟩
  | some i =>
    have hi : i < ninodes := by
      have hmem := List.mem_range'_1.mp (List.mem_of_find?_eq_some hfind)
      change 1 ≤ i ∧ i < 1 + (200 - 1) at hmem
      change i < 200
      omega
    have hfree : (s.dinode i).type = 0 := by simpa using List.find?_some hfind
    obtain ⟨hgood, hstays⟩ := h.ialloc hi hfree hfit
    dsimp only
    rw [wp_bind]
    apply wp_logWrite hout
    rw [wp_bind]
    refine wp_mono (wp_iget hgood hi) (fun _ t ht => ?_) fun _ _ he => he
    rw [wp_pure]
    exact ⟨ht.1, hstays.trans ht.2⟩

/-! ### The last reference -/

theorem Fs.Good.unref (h : s.Good (i :: H)) : ({ s with ref := update s.ref i (s.ref i - 1) } : Fs).Good H := by
  refine ⟨h.same_node rfl (fun _ => rfl) h.synced h.live fun j hj => ?_, fun j => ?_⟩
  · by_cases hji : j = i
    · exact hji ▸ h.number List.mem_cons_self
    · dsimp only at hj
      rw [update_of_ne hji] at hj
      exact h.refs j hj
  · have howned := h.owned j
    dsimp only
    by_cases hji : j = i
    · subst hji
      rw [List.count_cons_self] at howned
      rw [update_self]
      omega
    · rw [List.count_cons_of_ne (Ne.symm hji)] at howned
      rw [update_of_ne hji]
      exact howned

section Freed
variable (hu : u.blk = ((t.setIp i fun d => { d with type := 0 }).updated i).blk)
include hu

theorem Fs.Truncated.freed_dinode (ht : Truncated s.Alloc i s t) (hj : j < ninodes) (hji : j ≠ i) :
    u.dinode j = s.dinode j := by
  have hdinode : u.dinode j = ((t.setIp i fun d => { d with type := 0 }).updated i).dinode j := by
    unfold Fs.dinode
    rw [hu]
  rw [hdinode, stored_dinode hji, ← ht.dinode j hj hji]
  rfl

theorem freed_blk (hi : i < ninodes) (ha : sb.bmapstart ≤ a) : u.blk a = t.blk a := by
  rw [hu, stored_blk hi (.inr ha)]
  rfl

variable (ht : Truncated s.Alloc i s t) (hvalid : u.valid = update s.valid i false)
  (hip : ∀ j, j ≠ i → u.ip j = s.ip j)
include ht hvalid hip

theorem Fs.Truncated.freed_node (hj : j < ninodes) (hji : j ≠ i) : u.node j = s.node j := by
  unfold Fs.node
  rw [hvalid, update_of_ne hji, hip j hji, ht.freed_dinode hu hj hji]

theorem Fs.Truncated.freed_same (hi : i < ninodes) : Same (fun j => s.Alloc j ∧ j ≠ i) t u := by
  refine ⟨fun j hj => ?_, fun a ha => freed_blk hu hi (Nat.le_trans bmapstart_le.2.1 ha)⟩
  rw [ht.freed_node hu hvalid hip hj.1.1 hj.2, ht.node j hj.1 hj.2]

/-- The other inodes keep their content. -/
theorem Fs.Truncated.freed_byte (h : s.Sound) (hi : s.Alloc i) (hj : s.Alloc j) (hji : j ≠ i) (k : Nat) :
    u.byte j k = s.byte j k := by
  have hheld := (ht.held h.exact.held hi).subset (J := fun j => s.Alloc j ∧ j ≠ i) fun j hj => hj.1
  rw [hheld.byte_same (ht.freed_same hu hvalid hip hi.1) ⟨hj, hji⟩, ht.byte j k hj hji]

end Freed

/-- The inode is truncated and has no type any more. -/
theorem Fs.Truncated.freed (h : s.Good (i :: H)) (hv : s.valid i = true) (ht : Truncated s.Alloc i s t) (hu : u.blk =
    ((t.setIp i fun d => { d with type := 0 }).updated i).blk) (hvalid : u.valid = update s.valid i false)
    (hip : ∀ j, j ≠ i → u.ip j = s.ip j) (href : u.ref = s.ref) : u.Good (i :: H) := by
  have hi := (h.synced i hv).1
  have hsi := h.alloc hv
  obtain ⟨w, hw⟩ : ∃ w, w = t.setIp i fun d => { d with type := 0 } := ⟨_, rfl⟩
  have hwi : w.ip i = { t.ip i with type := 0 } := by rw [hw, setIp_self]
  have hwfit : (w.ip i).Fits := by
    have hfit := h.ip_fits hv
    rw [hwi, ht.self]
    exact ⟨Nat.two_pow_pos 16, hfit.major, hfit.minor, hfit.nlink, Nat.two_pow_pos 32, fun _ => Nat.two_pow_pos 32, fun _ _ => rfl⟩
  have hvi : u.valid i = false := by rw [hvalid, update_self]
  have hnodei : (u.node i).type = 0 := by
    have hdinode : u.dinode i = (w.updated i).dinode i := by
      unfold Fs.dinode
      rw [hu, hw]
    unfold Fs.node
    rw [hvi, hdinode, stored_self hwfit, hwi]
    rfl
  have hvj : ∀ j, j ≠ i → u.valid j = s.valid j := by
    intro j hji
    rw [hvalid, update_of_ne hji]
  have hnode : ∀ j, j < ninodes → j ≠ i → u.node j = s.node j := fun j => ht.freed_node hu hvalid hip
  have halloc : ∀ j, u.Alloc j → s.Alloc j ∧ j ≠ i := by
    intro j hj
    have hji : j ≠ i := by
      rintro rfl
      exact hj.2 hnodei
    refine ⟨⟨hj.1, ?_⟩, hji⟩
    rw [← hnode j hj.1 hji]
    exact hj.2
  have hbit : ∀ c, c < fsSize → u.bit c = t.bit c := by
    intro c hc
    unfold Fs.bit
    rw [freed_blk hu hi (bblock_range hc).1]
  have hheld := (ht.held h.exact.held hsi).subset (J := fun j => s.Alloc j ∧ j ≠ i) fun j hj => hj.1
  have hsame := ht.freed_same hu hvalid hip hi
  have haddr : ∀ j q, s.Alloc j → j ≠ i → u.addr j q = s.addr j q := by
    intro j q hj hji
    rw [hheld.addr_same hsame ⟨hj, hji⟩, ht.addr j q hj hji]
  refine ⟨h.build (fun j hj => ?_) (fun j q hj hq => ?_) (fun b hb => ?_) (fun b hb hlt hset => ?_) (fun j hj => ?_)
    (fun j hj => ?_) (href ▸ h.refs), href ▸ h.owned⟩
  · obtain ⟨hj', hji⟩ := halloc j hj
    rw [hnode j hj'.1 hji]
    exact .inl ⟨hj', rfl, rfl, fun q => haddr j q hj' hji, ht.freed_byte hu hvalid hip h.toSound hsi hj' hji⟩
  · have hj' := halloc j hj
    rw [hheld.addr_same hsame hj'] at hq ⊢
    rw [hbit _ (hheld.range j q hj' hq).2]
    exact hheld.set j q hj' hq
  · rw [hbit b (Nat.lt_of_lt_of_le hb bmapstart_le.2.2)]
    exact hheld.reserved b hb
  · rw [hbit b hlt, ht.bit b hlt] at hset
    obtain ⟨j, q, hj, hq⟩ := h.exact.tight b hb hlt hset.1
    have hji : j ≠ i := by
      rintro rfl
      exact hset.2 ⟨q, hq, Nat.ne_of_gt (Nat.lt_of_lt_of_le (by decide) hb)⟩
    refine ⟨j, q, ⟨hj.1, ?_⟩, (haddr j q hj hji).trans hq⟩
    rw [hnode j hj.1 hji]
    exact hj.2
  · have hji : j ≠ i := by
      rintro rfl
      rw [hvi] at hj
      cases hj
    rw [hvj j hji] at hj
    have hsync := h.synced j hj
    refine ⟨hsync.1, ?_⟩
    rw [ht.freed_dinode hu hsync.1 hji, hip j hji]
    exact hsync.2
  · have hji : j ≠ i := by
      rintro rfl
      rw [hvi] at hj
      cases hj
    rw [hvj j hji] at hj
    rw [hip j hji]
    exact h.live j hj

theorem wp_iput {E : Panic → Fs → Prop} (h : s.Good (i :: H)) (hout : 1 ≤ s.outstanding) :
    wp (iput i) s (fun _ t => t.Good H ∧ s.Stays H t ∧ Logs (· = iblock i) s t) E := by
  unfold iput
  rw [wp_bind, wp_get, wp_ite]
  refine ⟨fun hlast => ?_, fun _ => ?_⟩
  · obtain ⟨hv, -, href⟩ := hlast
    have hnot : i ∉ H := by
      intro hmem
      have howned := h.owned i
      have hpos := List.count_pos_iff.mpr hmem
      rw [List.count_cons_self, href] at howned
      omega
    rw [wp_bind]
    apply wp_itrunc h.exact.held (h.alloc hv) hv hout (h.ip_fits hv)
    intro t ht
    unfold setIp
    rw [wp_bind, wp_modify, wp_bind]
    refine wp_iupdate (s := t.setIp i _) (ht.outstanding ▸ hout) ?_
    rw [wp_bind, wp_modify, wp_modify]
    obtain ⟨u, hu⟩ : ∃ u : Fs, u = { (t.setIp i fun d => { d with type := 0 }).updated i with
      valid := update t.valid i false } := ⟨_, rfl⟩
    have href : u.ref = s.ref := by rw [← ht.ref, hu]; rfl
    have hip : ∀ j, j ≠ i → u.ip j = s.ip j := by
      intro j hj
      rw [← ht.ip j hj, hu]
      exact update_of_ne hj ..
    have hvalid : u.valid = update s.valid i false := by rw [hu, ht.valid]
    have hgood := ht.freed h hv (by rw [hu]) hvalid hip href
    have hlogs : Logs (· = iblock i) s (t.setIp i fun d => { d with type := 0 }) := ht.logs.congr rfl
    refine ⟨hu ▸ hgood.unref, ⟨fun j hj hvj => ?_, ht.outstanding⟩, (hlogs.updated rfl).congr rfl⟩
    have hji : j ≠ i := fun hji => hnot (hji ▸ hj)
    have hstays : u.valid j = true ∧ (u.ip j).type = (s.ip j).type := by
      rw [hvalid, update_of_ne hji, hip j hji]
      exact ⟨hvj, rfl⟩
    rw [hu] at hstays
    exact hstays
  · rw [wp_modify]
    exact ⟨h.unref, ⟨fun j _ hv => ⟨hv, rfl⟩, rfl⟩, .of_eq rfl⟩

/-! ### Content -/

theorem Fs.Sound.filled (h : s.Sound) (hi : s.Alloc i) (hle : off + n ≤ (s.node i).size) : s.Filled i off n := by
  intro k _ hhigh
  refine h.dense i (k / bsize) hi (Nat.lt_of_le_of_lt ?_ (Nat.lt_of_lt_of_le hhigh hle))
  exact Nat.div_mul_le_self k bsize

/-- `readi` needs no transaction. -/
theorem wp_readi_sound {Q : Option (List UInt8) → Fs → Prop} {E : Panic → Fs → Prop} (h : s.Sound)
    (hv : s.valid i = true) (hn : n < 2 ^ 32) (hdev : (s.ip i).type = tDev → Q io s) (hno : Q none s)
    (hyes : off ≤ (s.ip i).size →
      Q (some ((List.range (min n ((s.ip i).size - off))).map fun k => s.byte i (off + k))) s) :
    wp (readi i off n io) s Q E := by
  have hi := h.alloc hv
  refine wp_readi_present hv hn (h.ip_fits hv).size hdev (fun _ => hno) fun hle _ => ⟨h.filled hi ?_, hyes hle⟩
  rw [node_eq hv]
  omega

/-- A write that does not make the file larger leaves the addresses as they are. -/
theorem wp_writei_inside (h : s.Sound) (hv : s.valid i = true) (hout : 1 ≤ s.outstanding)
    (hin : off + n ≤ (s.ip i).size) : wp (writei i src off n dev) s (fun _ t => t.ip = s.ip) fun _ _ => True := by
  have hi := h.alloc hv
  unfold writei
  rw [wp_bind, wp_get]
  dsimp only
  rw [wp_ite]
  refine ⟨fun _ => (wp_pure _).mpr rfl, fun _ => ?_⟩
  rw [wp_ite]
  refine ⟨fun _ => (wp_pure _).mpr rfl, fun _ => ?_⟩
  rw [wp_ite]
  refine ⟨fun _ => (wp_pure _).mpr rfl, fun _ => ?_⟩
  rw [wp_bind]
  apply wp_writeLoop_present hv h.exact.held hi hout (h.filled hi (by rw [node_eq hv]; exact hin)) (Nat.le_refl n)
  intro t ht
  rw [wp_bind, wp_get, wp_ite, ht]
  refine ⟨fun hgrow => absurd hgrow.2 (Nat.not_lt_of_le hin), fun _ => ?_⟩
  exact (wp_pure _).mpr ht

/-- What is written to a directory is an entry. -/
def Entry (type : Nat) (src : Nat → UInt8) (off n : Nat) : Prop :=
  type = tDir → off % direntSize = 0 ∧ n = direntSize ∧ word src 0 2 < ninodes

theorem Fs.Good.written (h : s.Good H) (hv : s.valid i = true) (hw : Written s.Alloc i src off n s t)
    (hip : off + n ≤ (s.ip i).size → t.ip = s.ip) (hle : off ≤ (s.ip i).size) (hentry : Entry (s.ip i).type src off n) :
    t.Good H ∧ s.Stays H t := by
  have hi := h.alloc hv
  have hnodes := node_eq hv
  have hvt : t.valid i = true := by rw [hw.valid]; exact hv
  have hnodet := node_eq hvt
  have htype : ∀ j, j < ninodes → (t.node j).type = (s.node j).type := by
    intro j hj
    by_cases hji : j = i
    · rw [hji, hw.self]
    · rw [hw.node j hj hji]
  have halloc : t.Alloc = s.Alloc := by
    funext j
    refine propext (and_congr_right fun hj => ?_)
    rw [htype j hj]
  have hipj : ∀ j, s.valid j = true → j ≠ i → t.ip j = s.ip j := by
    intro j hj hji
    rw [← node_eq hj, ← hw.node j (h.synced j hj).1 hji]
    exact (node_eq (by rw [hw.valid]; exact hj)).symm
  refine ⟨⟨⟨⟨?_, ?_⟩, ?_, ?_, ?_, ?_, ?_⟩, ?_⟩, ?_, hw.outstanding⟩
  · rw [halloc]
    exact hw.held
  · intro b hb hlt hset
    obtain hold | ⟨p, hp⟩ := hw.tight b hb hlt hset
    · obtain ⟨j, q, hj, hq⟩ := h.exact.tight b hb hlt hold
      refine ⟨j, q, halloc ▸ hj, (hw.kept j q hj ?_).trans hq⟩
      rw [hq]
      exact Nat.ne_of_gt (Nat.lt_of_lt_of_le (by decide) hb)
    · exact ⟨i, p, halloc ▸ hi, hp⟩
  · intro j bn hj hbn
    rw [halloc] at hj
    by_cases hold : bn * bsize < (s.node j).size
    · have h0 := h.dense j bn hj hold
      rw [hw.kept j _ hj h0]
      exact h0
    · have hji : j = i := by
        by_contra hne
        rw [hw.node j hj.1 hne] at hbn
        exact hold hbn
      subst hji
      rw [hw.self] at hbn
      dsimp only at hbn
      rw [hnodes] at hbn hold
      have hfilled := hw.filled (bn * bsize) (by omega) (by omega)
      rw [Nat.mul_div_cancel _ (by decide)] at hfilled
      exact hfilled
  · intro j k hj hdir hk
    rw [htype j hj.1] at hdir
    rw [halloc] at hj
    by_cases hji : j = i
    · subst hji
      rw [hnodes] at hdir
      obtain ⟨hmod, rfl, hnum⟩ := hentry hdir
      have hdsize : direntSize = 16 := rfl
      rw [hdsize] at hmod hk hw
      by_cases hrecord : direntSize * k = off
      · have hword : word (t.byte j) (direntSize * k) 2 = word src 0 2 := by
          rw [hrecord]
          refine (word_window fun m hm => ?_).symm
          rw [hw.puts j _ hj, if_pos ⟨rfl, Nat.le_add_right .., by omega⟩, Nat.add_sub_cancel_left]
        unfold inum
        rw [hword]
        exact hnum
      · have hbytes : t.inum j k = s.inum j k := by
          refine word_congr fun m hlow hhigh => (hw.puts j m hj).trans (if_neg fun hand => ?_)
          rw [hdsize] at hlow hhigh hrecord
          omega
        rw [hbytes]
        refine h.names j k hj (by rw [hnodes]; exact hdir) ?_
        rw [hw.self] at hk
        dsimp only at hk
        rw [hnodes] at hk ⊢
        rw [hdsize] at hrecord ⊢
        omega
    · have hbytes : t.inum j k = s.inum j k :=
        word_congr fun m _ _ => (hw.puts j m hj).trans (if_neg fun hand => hji hand.1)
      rw [hbytes]
      refine h.names j k hj hdir ?_
      rw [← hw.node j hj.1 hji]
      exact hk
  · intro j hj
    rw [hw.valid] at hj
    obtain ⟨hlt, hsync⟩ := h.synced j hj
    refine ⟨hlt, ?_⟩
    by_cases hji : j = i
    · subst hji
      obtain hdisk | ⟨hdisk, hsame⟩ := hw.disk
      · exact hdisk
      · rw [hnodes] at hsame
        rw [hdisk, hip hsame]
        exact hsync
    · rw [hw.dinode j hlt hji, hipj j hj hji]
      exact hsync
  · intro j hj
    have hlt := (h.synced j (hw.valid ▸ hj)).1
    rw [← node_eq hj, htype j hlt, node_eq (by rw [← hw.valid]; exact hj)]
    exact h.live j (hw.valid ▸ hj)
  · rw [hw.ref]
    exact h.refs
  · rw [hw.ref]
    exact h.owned
  · intro j _ hvj
    have hvtj : t.valid j = true := by rw [hw.valid]; exact hvj
    refine ⟨hvtj, ?_⟩
    rw [← node_eq hvtj, htype j (h.synced j hvj).1, node_eq hvj]

theorem wp_writei_sound (h : s.Good H) (hv : s.valid i = true) (hout : 1 ≤ s.outstanding) (hoff : off < 2 ^ 32)
    (hn : n < 2 ^ 32) (hentry : Entry (s.ip i).type src off n) :
    wp (writei i src off n dev) s (fun _ t => t.Good H ∧ s.Stays H t) Harmless := by
  by_cases hdev : (s.ip i).type = tDev
  · unfold writei
    rw [wp_bind, wp_get, wp_ite]
    exact ⟨fun _ => (wp_pure _).mpr ⟨h, .refl H s⟩, fun hne => absurd hdev hne⟩
  have hspec : wp (writei i src off n dev) s
      (fun _ t => t = s ∨ Accepts (s.ip i).size off n ∧ Written s.Alloc i src off n s t) Harmless := wp_writei
    (fun _ _ => ⟨by decide, by decide, by decide⟩) h.exact.held hout (h.alloc hv) hv hdev hoff hn (h.ip_fits hv)
    (fun _ => .inl rfl) fun hacc t ht => .inr ⟨hacc, ht⟩
  by_cases hin : off + n ≤ (s.ip i).size
  · refine wp_mono (wp_and hspec (wp_writei_inside h.toSound hv hout hin)) (fun r t ht => ?_) fun _ _ he => he.1
    obtain ⟨rfl | ⟨hacc, hw⟩, hip⟩ := ht
    · exact ⟨h, .refl H t⟩
    · exact h.written hv hw (fun _ => hip) hacc.1 hentry
  · refine wp_mono hspec (fun r t ht => ?_) fun _ _ he => he
    obtain rfl | ⟨hacc, hw⟩ := ht
    · exact ⟨h, .refl H t⟩
    · exact h.written hv hw (fun hle => absurd hle hin) hacc.1 hentry

end Xv6.Disk
