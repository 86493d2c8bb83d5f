import AdvancedXv6.Disk.Keep

/-! The blocks that `writei` logs: the ones at the places it writes to, the indirect block, and those of the
free map. -/

namespace Xv6.Disk
open Function Effect Bytes Fs
variable {I P : Nat → Prop} {s t u : Fs} {i j a b c n off p q bn k rounds w : Nat} {src : Nat → UInt8} {dev : Bool}
  {E : Panic → Fs → Prop}

/-! ### Allocation -/

theorem balloc_logs (hs : s.Held I) (hout : 1 ≤ s.outstanding) :
    wp balloc s (fun b t => Logs (· = b) s t ∧ t.outstanding = s.outstanding) fun _ t => Spends 0 s t := by
  apply wp_balloc hs hout
  · exact fun _ => .of_eq rfl
  · intro b _ _ hb
    have hzero : ∀ {v : Fs}, Logs (· = b) s v → Logs (· = b) s (v.setBlk b fun _ => 0) :=
      fun h => h.setBlk (.inr rfl) _
    exact ⟨hzero ((Logs.refl _ s).setBlk (.inl (bblock_mem hb)) _), rfl⟩

theorem direct_logs (hs : s.Held I) (hout : 1 ≤ s.outstanding) :
    wp (direct i k) s (fun a t => Logs (· = a) s t) fun _ t => Spends 0 s t := by
  unfold direct
  rw [wp_bind, wp_get, wp_ite]
  refine ⟨fun _ => ?_, fun _ => (wp_pure _).mpr (.refl _ s)⟩
  refine wp_seq (balloc_logs hs hout) fun a t ht => ?_
  unfold setIp
  rw [wp_bind, wp_modify, wp_pure]
  exact ht.1.congr rfl

theorem indirect_logs (hs : s.Held I) (hout : 1 ≤ s.outstanding) :
    wp (indirect b j) s (fun a t => Logs (fun w => w = a ∨ w = b) s t) fun _ t => Spends 0 s t := by
  unfold indirect
  rw [wp_bind, wp_get, wp_ite]
  refine ⟨fun _ => ?_, fun _ => (wp_pure _).mpr (.refl _ s)⟩
  refine wp_seq (balloc_logs hs hout) fun a t ht => ?_
  obtain ⟨hlogs, houtt⟩ := ht
  rw [wp_bind, wp_get, wp_bind]
  apply wp_logWrite (houtt ▸ hout)
  rw [wp_pure]
  exact (hlogs.mono fun w hw => .inl hw).setBlk (.inr (.inr rfl)) _

namespace Fs

/-- The places of an inode that a write to its block `bn` can log. -/
def touched (bn : Nat) : List Nat := if bn < ndirect then [place bn] else [place bn, ndirect]

/-- The places for the `n` bytes from `off` on. -/
def Touched (off n p : Nat) : Prop := ∃ k, off ≤ k ∧ k < off + n ∧ p ∈ touched (k / bsize)

/-- The blocks at the places `P` of inode `i`. -/
def At (i : Nat) (P : Nat → Prop) (s : Fs) (w : Nat) : Prop := ∃ p, P p ∧ s.addr i p = w ∧ w ≠ 0

theorem At.mono {P' : Nat → Prop} (h : At i P s w) (hP : ∀ p, P p → P' p) : At i P' s w := by
  obtain ⟨p, hp, hw⟩ := h
  exact ⟨p, hP p hp, hw⟩

theorem At.kept (h : At i P s w) (hkept : ∀ p, s.addr i p ≠ 0 → t.addr i p = s.addr i p) : At i P t w := by
  obtain ⟨p, hp, rfl, h0⟩ := h
  exact ⟨p, hp, hkept p h0, h0⟩

theorem At.mem {ps : List Nat} (h : At i (· ∈ ps) s w) : w ∈ ps.map (s.addr i) := by
  obtain ⟨p, hp, hw, -⟩ := h
  exact List.mem_map.mpr ⟨p, hp, hw⟩

end Fs

section Blocks
variable (hs : s.Held I) (hout : 1 ≤ s.outstanding) (hi : I i) (hv : s.valid i = true)
include hs hout hi hv

theorem bmap_logged (hbn : bn < maxFile) : wp (bmap i bn) s
    (fun a t => s.Grows I i t ∧ t.addr i (place bn) = a ∧ a ≠ 0 ∧ Logs (At i (· ∈ touched bn) t) s t)
    fun _ t => Spends 1 s t := by
  have hgrows : wp (bmap i bn) s (fun a t => s.Grows I i t ∧ t.addr i (place bn) = a ∧ a ≠ 0) fun _ _ => True :=
    wp_bmap hs hout (fun _ _ => trivial) hi hv hbn fun a t hg _ ha h0 => ⟨hg, ha, h0⟩
  have hlogs : wp (bmap i bn) s (fun a t => Logs (fun w => w = a ∨ ndirect ≤ bn ∧ w = t.addr i ndirect) s t)
      fun _ t => Spends 1 s t := by
    unfold bmap
    rw [wp_ite]
    refine ⟨fun _ => ?_, fun hdir => ?_⟩
    · exact wp_mono (direct_logs hs hout) (fun a t ht => ht.mono fun w hw => .inl hw) fun _ _ he => he.mono (Nat.zero_le 1)
    have hsmall : bn - ndirect < nindirect := by
      change bn < ndirect + nindirect at hbn
      omega
    rw [wp_ite]
    refine ⟨fun _ => ?_, fun hlarge => absurd hsmall hlarge⟩
    have hfirst : wp (direct i ndirect) s (fun b t => s.Grows I i t ∧ t.addr i ndirect = b ∧ b ≠ 0) fun _ _ => True :=
      wp_direct hs hout (fun _ _ => trivial) hv (Nat.le_refl _) fun b t hg _ hb h0 => ⟨hg, hb, h0⟩
    refine wp_seq (wp_mono (wp_and hfirst (direct_logs hs hout)) (fun b t ht => ht)
      fun _ _ he => he.2.mono (Nat.zero_le 1)) fun b t ht => ?_
    obtain ⟨⟨hg, rfl, h0⟩, hone⟩ := ht
    have houtt : 1 ≤ t.outstanding := hg.outstanding ▸ hout
    have hsecond : wp (indirect (t.addr i ndirect) (bn - ndirect)) t (fun _ u => t.Grows I i u) fun _ _ => True :=
      wp_indirect hg.held houtt (fun _ _ => trivial) hi hsmall h0 fun _ _ hg' _ _ _ => hg'
    refine wp_mono (wp_and hsecond (indirect_logs hg.held houtt)) (fun a u hu => ?_) fun _ u he => ?_
    · have hkept : u.addr i ndirect = t.addr i ndirect := hu.1.kept i ndirect hi h0
      have hor : ∀ w, w = t.addr i ndirect → w = a ∨ ndirect ≤ bn ∧ w = u.addr i ndirect :=
        fun w hw => .inr ⟨Nat.le_of_not_lt hdir, hw.trans hkept.symm⟩
      exact (hone.mono hor).trans (hu.2.mono fun w hw => hw.elim .inl (hor w))
    · have hlist : Logs (· ∈ [t.addr i ndirect]) s t := hone.mono fun w hw => List.mem_singleton.mpr hw
      exact hlist.then_spends he.2 (Nat.le_refl 1)
  refine wp_mono (wp_and hgrows hlogs) (fun a t ht => ?_) fun _ _ he => he.2
  obtain ⟨⟨hg, ha, h0⟩, hlogs⟩ := ht
  refine ⟨hg, ha, h0, hlogs.mono fun w hw => ?_⟩
  rcases hw with rfl | ⟨hdir, rfl⟩
  · refine ⟨place bn, ?_, ha, h0⟩
    unfold touched
    split <;> exact List.mem_cons_self
  · refine ⟨ndirect, ?_, rfl, fun hnone => h0 (ha.symm.trans (addr_none hnone ?_))⟩
    · unfold touched
      rw [if_neg (Nat.not_lt_of_le hdir)]
      exact List.mem_cons_of_mem _ List.mem_cons_self
    · rw [place, if_neg (Nat.not_lt_of_le hdir)]
      exact Nat.le_succ_of_le hdir

/-- If the disk is full, the loop stops before the next block. -/
theorem writeLoop_logged (hn : n ≤ rounds) (hmax : off + n ≤ maxFile * bsize) :
    wp (writeLoop i rounds src off n) s (fun _ t => s.Grows I i t ∧ Logs (At i (Touched off n) t) s t)
      fun _ u => ∃ t, s.Grows I i t ∧ Logs (At i (Touched off n) t) s t ∧ Spends 1 t u := by
  induction rounds generalizing s src off n with
  | zero =>
    rw [writeLoop, wp_pure]
    exact ⟨.refl hs i, .refl _ s⟩
  | succ rounds ih =>
    rw [writeLoop, wp_ite]
    refine ⟨fun _ => (wp_pure _).mpr ⟨.refl hs i, .refl _ s⟩, fun hpos => ?_⟩
    refine wp_seq (wp_mono (bmap_logged hs hout hi hv (block_lt (by omega))) (fun a t ht => ht)
      fun _ u he => ⟨s, .refl hs i, .refl _ s, he⟩) fun a t ht => ?_
    obtain ⟨hg, ha, h0, hlogs⟩ := ht
    have hmod := off_lt off
    dsimp only
    rw [wp_bind, wp_get, wp_bind]
    generalize hm : min n (bsize - off % bsize) = m
    apply wp_logWrite (hg.outstanding ▸ hout)
    generalize hx : put (t.blk a) (off % bsize) src m = x
    obtain ⟨hg', -⟩ := hg.held.store hi ha h0 x
    have hself : place (off / bsize) ∈ touched (off / bsize) := by
      unfold touched
      split <;> exact List.mem_cons_self
    -- the blocks that are logged in this round, as they are at the end of the loop
    have hround : ∀ {v : Fs}, (t.setBlk a x).Grows I i v → Logs (At i (Touched off n) v) s (t.setBlk a x) := by
      intro v hv'
      have hgv := hg'.trans hv' hi
      have hat : ∀ w, At i (· ∈ touched (off / bsize)) t w → At i (Touched off n) v w := fun w hw =>
        (hw.mono fun p hp => (⟨off, Nat.le_refl off, by omega, hp⟩ : Touched off n p)).kept fun p h0 => hgv.kept i p hi h0
      exact (hlogs.mono hat).setBlk (.inr (hat a ⟨place (off / bsize), hself, ha, h0⟩)) x
    have hrest : ∀ {v w}, At i (Touched (off + m) (n - m)) v w → At i (Touched off n) v w := fun hw =>
      hw.mono fun p hp => by
        obtain ⟨k, hlow, hhigh, hk⟩ := hp
        exact ⟨k, by omega, by omega, hk⟩
    have hgx := hg.trans hg' hi
    refine wp_mono (ih hg'.held (hg.outstanding ▸ hout) (by rw [← hv, ← hg.valid]; rfl) (by omega) (by omega))
      (fun _ v hv' => ⟨hgx.trans hv'.1 hi, (hround hv'.1).trans (hv'.2.mono fun w => hrest)⟩) fun _ u he => ?_
    obtain ⟨v, hgv, hlogs', hspends⟩ := he
    exact ⟨v, hgx.trans hgv hi, (hround hgv).trans (hlogs'.mono fun w => hrest), hspends⟩

theorem writei_logged (htype : (s.ip i).type ≠ tDev) (hoff : off < 2 ^ 32) (hn : n < 2 ^ 32) :
    wp (writei i src off n dev) s
      (fun r t => r = true → Logs (fun w => w = iblock i ∨ At i (Touched off n) t w) s t)
      fun _ u => ∃ t, Logs (At i (Touched off n) t) s t ∧ Spends 1 t u := by
  have hcap : maxFile * bsize = 71680 := rfl
  unfold writei
  rw [wp_bind, wp_get]
  dsimp only
  rw [wp_ite]
  refine ⟨fun hdev => absurd hdev htype, fun _ => ?_⟩
  rw [wp_ite]
  refine ⟨fun _ => (wp_pure _).mpr fun hf => absurd hf (by decide), fun _ => ?_⟩
  rw [wp_ite]
  refine ⟨fun _ => (wp_pure _).mpr fun hf => absurd hf (by decide), fun hsmall => ?_⟩
  refine wp_seq (wp_mono (writeLoop_logged hs hout hi hv (Nat.le_refl n) (by omega)) (fun _ t ht => ht)
    fun _ u he => ?_) fun off' t ht => ?_
  · obtain ⟨t, -, hlogs, hspends⟩ := he
    exact ⟨t, hlogs, hspends⟩
  obtain ⟨hg, hlogs⟩ := ht
  rw [wp_bind, wp_get, wp_ite]
  refine ⟨fun _ => ?_, fun _ => (wp_pure _).mpr fun _ => hlogs.mono fun w hw => .inr hw⟩
  unfold setIp
  rw [wp_bind, wp_modify, wp_bind]
  refine wp_iupdate (s := t.setIp i _) (hg.outstanding ▸ hout) ?_
  rw [wp_pure]
  have hsame : Same I t ((t.setIp i fun d => { d with size := off' }).updated i) :=
    resized_same (hs.number i hi) (by rw [hg.valid]; exact hv)
  have hat : ∀ w, At i (Touched off n) t w → At i (Touched off n) ((t.setIp i fun d => { d with size := off' }).updated i) w :=
    fun w hw => hw.kept fun p _ => hg.held.addr_same hsame hi p
  have hall : Logs (fun w => w = iblock i ∨ _) s (t.setIp i fun d => { d with size := off' }) :=
    (hlogs.mono fun w hw => .inr (hat w hw)).congr rfl
  exact fun _ => hall.updated (.inl rfl)

end Blocks

/-! ### Writes -/

/-- An entry is in one block. -/
theorem touched_entry (hmod : off % direntSize = 0) (hp : Touched off direntSize p) : p ∈ touched (off / bsize) := by
  obtain ⟨k, hlow, hhigh, hp⟩ := hp
  have hblock : k / bsize = off / bsize := by
    change off % 16 = 0 at hmod
    change k < off + 16 at hhigh
    change k / 512 = off / 512
    omega
  exact hblock ▸ hp

section Writes
variable {H : List Nat} (h : s.Good H) (hv : s.valid i = true) (hout : 1 ≤ s.outstanding) (hoff : off < 2 ^ 32)
include h hv hout hoff

theorem writei_written (hn : n < 2 ^ 32) :
    wp (writei i src off n dev) s (fun _ t => t = s ∨ (Written s.Alloc i src off n s t ∧
        Logs (fun w => w = iblock i ∨ At i (Touched off n) t w) s t))
      fun _ u => ∃ t, Logs (At i (Touched off n) t) s t ∧ Spends 1 t u := by
  by_cases hdev : (s.ip i).type = tDev
  · unfold writei
    rw [wp_bind, wp_get, wp_ite]
    exact ⟨fun _ => (wp_pure _).mpr (.inl rfl), fun hne => absurd hdev hne⟩
  have hi := h.alloc hv
  have hspec : wp (writei i src off n dev) s (fun r t => t = s ∨ r = true ∧ Written s.Alloc i src off n s t)
      fun _ _ => True := wp_writei (fun _ _ => trivial) h.exact.held hout hi hv hdev hoff hn (h.ip_fits hv)
    (fun _ => .inl rfl) fun _ t ht => .inr ⟨rfl, ht⟩
  refine wp_mono (wp_and hspec (writei_logged h.exact.held hout hi hv hdev hoff hn)) (fun r t ht => ?_) fun _ _ he => he.2
  exact ht.1.imp_right fun hw => ⟨hw.2, ht.2 hw.1⟩

/-- One part of a write, as `filewrite` makes them. -/
theorem writei_spends (hn : n ≤ maxWrite) : wp (writei i src off n dev) s (fun _ t => Spends 7 s t) fun _ t => Spends 7 s t := by
  have hmax : maxWrite = 1536 := rfl
  -- the part is in four blocks
  have hlist : ∀ {t w}, At i (Touched off n) t w →
      w ∈ t.addr i ndirect :: (List.range 4).map fun k => t.addr i (place (off / bsize + k)) := by
    rintro t w ⟨p, ⟨k, hlow, hhigh, hp⟩, rfl, -⟩
    rw [List.mem_cons, List.mem_map]
    unfold touched at hp
    have hblock : k / bsize = off / bsize + (k / bsize - off / bsize) ∧ k / bsize - off / bsize < 4 := by
      change k / 512 = off / 512 + (k / 512 - off / 512) ∧ k / 512 - off / 512 < 4
      omega
    have hdata : place (k / bsize) = p → ∃ k, k ∈ List.range 4 ∧ t.addr i (place (off / bsize + k)) = t.addr i p := by
      rintro rfl
      exact ⟨k / bsize - off / bsize, List.mem_range.mpr hblock.2, by rw [← hblock.1]⟩
    split at hp
    · exact .inr (hdata (List.mem_singleton.mp hp).symm)
    · obtain rfl | hp := List.mem_cons.mp hp
      · exact .inr (hdata rfl)
      · exact .inl (by rw [List.mem_singleton.mp hp])
  refine wp_mono (writei_written h hv hout hoff (Nat.lt_of_le_of_lt hn (by decide))) (fun r t ht => ?_) fun _ u he => ?_
  · obtain rfl | ⟨-, hlogs⟩ := ht
    · exact .of_eq rfl
    · have hall : Logs (· ∈ iblock i :: t.addr i ndirect :: (List.range 4).map fun k => t.addr i (place (off / bsize + k))) s t :=
        hlogs.mono fun w hw => List.mem_cons.mpr (hw.imp_right hlist)
      exact hall.spends (by simp)
  · obtain ⟨t, hlogs, hspends⟩ := he
    have hall : Logs (· ∈ t.addr i ndirect :: (List.range 4).map fun k => t.addr i (place (off / bsize + k))) s t :=
      hlogs.mono fun w => hlist
    exact hall.then_spends hspends (by simp)

end Writes

end Xv6.Disk
