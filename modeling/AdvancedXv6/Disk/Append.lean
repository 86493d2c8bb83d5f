import AdvancedXv6.Disk.Arrays
import AdvancedXv6.Disk.Mkfs

/-! `iappend` seen as the kernel sees it: the next block to take is the first one that is free in the map. -/

namespace Xv6.Disk.Mkfs
open Function Effect Bytes Fs
variable {I : Nat → Prop} {m m' : Image} {d d' : Dinode} {i j b c k p q bn n off x : Nat} {y : Block} {src : Nat → UInt8}
  {s t : Fs}

/-- The map that `mkfs` writes in the end. -/
def Image.blk (m : Image) (n : Nat) : Block :=
  if sb.bmapstart ≤ n ∧ n < nmeta then ofBits fun k => decide (bpb * (n - sb.bmapstart) + k < m.freeblock) else m.disk n

/-- The image while inode `i` is `d` in memory. -/
def Image.view (m : Image) (i : Nat) (d : Dinode) : Fs where
  blk := m.blk
  ip := update (fun _ => ⟨0, 0, 0, 0, 0, fun _ => 0⟩) i d
  valid j := decide (j = i)
  ref _ := 0
  outstanding := 1
  logged := []

theorem wp_assert {P : Prop} [Decidable P] {e : Assertion} {Q : Unit → Image → Prop} {E : Assertion → Image → Prop} (h : P)
    (hQ : Q () m) : wp (assert e P) m Q E := by
  rw [assert, if_pos h]
  exact (wp_pure _).mpr hQ

theorem view_valid (m : Image) (i : Nat) (d : Dinode) : (m.view i d).valid i = true := decide_eq_true rfl

theorem view_ip (m : Image) (i : Nat) (d : Dinode) : (m.view i d).ip i = d := by
  unfold Image.view
  dsimp only
  rw [update_self]

theorem view_node (m : Image) (i : Nat) (d : Dinode) : (m.view i d).node i = d :=
  (node_eq (view_valid m i d)).trans (view_ip m i d)

theorem view_node_ne (hj : j ≠ i) : (m.view i d).node j = (m.view i d).dinode j := if_neg (by simpa [Image.view] using hj)

theorem blk_disk (hn : n < sb.bmapstart ∨ nmeta ≤ n) : m.blk n = m.disk n := if_neg (by omega)

theorem view_bit (hb : b < fsSize) : (m.view i d).bit b = decide (b < m.freeblock) := by
  have hrange := bblock_range hb
  have hsum : bpb * (bblock b - sb.bmapstart) + b % bpb = b := by
    change 4096 * (b / 4096 + 6458 - 6458) + b % 4096 = b
    omega
  unfold Fs.bit Image.view Image.blk
  dsimp only
  rw [if_pos hrange, bit_ofBits, hsum]

theorem view_setIp (m : Image) (f : Dinode → Dinode) : (m.view i d).setIp i f = m.view i (f d) := by
  unfold Fs.setIp
  rw [view_ip]
  unfold Image.view
  dsimp only
  rw [update_idem]

/-- A sector of the data area is written. -/
theorem view_setBlk (hx : nmeta ≤ x) :
    ({ m with disk := update m.disk x y } : Image).view i d = { (m.view i d).setBlk x y with logged := [] } := by
  have hblk : ({ m with disk := update m.disk x y } : Image).blk = update m.blk x y := by
    funext n
    by_cases hn : n = x
    · subst hn
      rw [blk_disk (.inr hx), update_self]
      exact update_self ..
    · rw [update_of_ne hn]
      unfold Image.blk
      dsimp only
      rw [update_of_ne hn]
  unfold Fs.setBlk Image.view
  dsimp only
  rw [hblk]

theorem Fills.relog {l : List Nat} (h : Fills I i p b s t) : Fills I i p b s { t with logged := l } :=
  ⟨h.self, h.others, h.bit, h.node, h.fields, h.data, h.zero, h.dinode, h.valid, h.ref, h.outstanding, h.fits⟩

/-- The blocks from the next one on are full of zeros. -/
structure Image.Blank (m : Image) : Prop where
  first : nmeta ≤ m.freeblock
  zero : ∀ b, m.freeblock ≤ b → m.disk b = fun _ => 0

theorem Image.Blank.claims (h : m.Blank) :
    Claims m.freeblock (m.view i d) (({ m with freeblock := m.freeblock + 1 } : Image).view i d) := by
  refine ⟨fun a ha hmap => ?_, ?_, fun c hc => ?_, rfl, rfl, rfl, rfl⟩
  · change Image.blk _ a = m.blk a
    rw [blk_disk hmap, blk_disk hmap]
  · change Image.blk _ m.freeblock = fun _ => 0
    rw [blk_disk (.inr h.first)]
    exact h.zero _ (Nat.le_refl _)
  · rw [view_bit hc, view_bit hc]
    change decide (c < m.freeblock + 1) = _
    by_cases hcb : c = m.freeblock
    · rw [if_pos hcb, decide_eq_true (by omega)]
    · rw [if_neg hcb]
      exact decide_eq_decide.mpr (by omega)

/-- How many blocks a file of `size` bytes takes, with its indirect block. -/
def blocks (size : Nat) : Nat := (size + bsize - 1) / bsize + if ndirect * bsize < size then 1 else 0

/-- The blocks of the inode are those of its first `size` bytes. -/
structure Solid (i size : Nat) (s : Fs) : Prop where
  data : ∀ bn, s.addr i (place bn) ≠ 0 ↔ bn * bsize < size
  indirect : s.addr i ndirect ≠ 0 ↔ ndirect * bsize < size

/-- What taking blocks for inode `i` does. -/
structure Taken (I : Nat → Prop) (i : Nat) (m : Image) (d : Dinode) (m' : Image) (d' : Dinode) : Prop where
  grows : Grows I i (m.view i d) (m'.view i d')
  blank : m'.Blank
  reserved : ∀ a, a < nmeta → m'.disk a = m.disk a
  freeinode : m'.freeinode = m.freeinode

theorem Taken.refl (hs : (m.view i d).Held I) (hm : m.Blank) : Taken I i m d m d :=
  ⟨.refl hs i, hm, fun _ _ => rfl, rfl⟩

theorem Taken.trans {m'' : Image} {d'' : Dinode} (h : Taken I i m d m' d') (h' : Taken I i m' d' m'' d'') (hi : I i) :
    Taken I i m d m'' d'' :=
  ⟨h.grows.trans h'.grows hi, h'.blank, fun a ha => (h'.reserved a ha).trans (h.reserved a ha),
    h'.freeinode.trans h.freeinode⟩

/-- The indirect block is in the data area. -/
theorem blk_indirect (hs : (m.view i d).Held I) (hi : I i) (h0 : d.addrs ndirect ≠ 0) :
    nmeta ≤ d.addrs ndirect ∧ d.addrs ndirect < fsSize ∧ m.blk (d.addrs ndirect) = m.disk (d.addrs ndirect) := by
  have hind : (m.view i d).addr i ndirect = d.addrs ndirect := by
    unfold Fs.addr
    rw [view_node, Dinode.addr_direct (Nat.le_refl _)]
  have hrange := hs.range i ndirect hi (hind ▸ h0)
  rw [hind] at hrange
  exact ⟨hrange.1, hrange.2, blk_disk (.inr hrange.1)⟩

theorem view_free (hlt : m.freeblock < fsSize) : (m.view i d).bit m.freeblock = false := by
  rw [view_bit hlt, decide_eq_false (Nat.lt_irrefl _)]

section Direct
variable (hs : (m.view i d).Held I) (hm : m.Blank) (hlt : m.freeblock < fsSize)
include hs hm hlt

/-- The next block becomes a direct block of the inode, or its indirect block. -/
theorem taken_direct (hk : k ≤ ndirect) (hz : d.addrs k = 0) :
    Fills I i k m.freeblock (m.view i d)
      (({ m with freeblock := m.freeblock + 1 } : Image).view i { d with addrs := update d.addrs k m.freeblock }) ∧
    Taken I i m d { m with freeblock := m.freeblock + 1 } { d with addrs := update d.addrs k m.freeblock } := by
  have hfills := hs.fills_direct (view_valid m i d) hk (by rw [view_ip]; exact hz) hm.claims
    (view_free hlt) hm.first hlt
  rw [view_setIp] at hfills
  have haddr : (m.view i d).addr i k = 0 := by
    unfold Fs.addr
    rw [view_node, Dinode.addr_direct hk, hz]
  refine ⟨hfills, hfills.grows hs haddr (view_free hlt) hm.first hlt, ⟨Nat.le_succ_of_le hm.first, fun b hb => ?_⟩,
    fun _ _ => rfl, rfl⟩
  exact hm.zero b (Nat.le_of_succ_le hb)

/-- The next block becomes a block of the indirect block `bp`. -/
theorem taken_indirect {bp : Nat} (hi : I i) (hbp : d.addrs ndirect = bp) (h0 : bp ≠ 0) (hk : k < nindirect)
    (hz : word (m.disk bp) (4 * k) 4 = 0) :
    Fills I i (ndirect + 1 + k) m.freeblock (m.view i d)
      (({ m with freeblock := m.freeblock + 1
                 disk := update m.disk bp (put (m.disk bp) (4 * k) (digits m.freeblock) 4) } : Image).view i d) ∧
    Taken I i m d { m with freeblock := m.freeblock + 1
                           disk := update m.disk bp (put (m.disk bp) (4 * k) (digits m.freeblock) 4) } d := by
  have hind : (m.view i d).addr i ndirect = bp := by
    unfold Fs.addr
    rw [view_node, Dinode.addr_direct (Nat.le_refl _), hbp]
  have hrange := hs.range i ndirect hi (hind ▸ h0)
  have hset := hs.set i ndirect hi (hind ▸ h0)
  rw [hind] at hrange hset
  have hlow : bp < m.freeblock := by
    rw [view_bit hrange.2, decide_eq_true_eq] at hset
    exact hset
  have hblk : (({ m with freeblock := m.freeblock + 1 } : Image).view i d).blk bp = m.disk bp := blk_disk (.inr hrange.1)
  have hfills := Fills.relog (l := []) (hs.fills_indirect hi hk (hind ▸ h0) hm.claims (view_free hlt) hm.first hlt)
  rw [hind, hblk, ← view_setBlk hrange.1] at hfills
  have haddr : (m.view i d).addr i (ndirect + 1 + k) = 0 := by
    unfold Fs.addr
    rw [view_node, Dinode.addr_indirect hk (by rw [hbp]; exact h0), hbp]
    change word (m.blk bp) (4 * k) 4 = 0
    rw [blk_disk (.inr hrange.1), hz]
  refine ⟨hfills, hfills.grows hs haddr (view_free hlt) hm.first hlt, ⟨Nat.le_succ_of_le hm.first, fun b hb => ?_⟩,
    fun a ha => ?_, rfl⟩
  · refine (update_of_ne ?_ ..).trans (hm.zero b (Nat.le_of_succ_le hb))
    dsimp only at hb
    omega
  · exact update_of_ne (by omega) ..

end Direct

/-! ### One block -/

theorem blocks_same (h : off % bsize ≠ 0) : blocks (off + 1) = blocks off := by
  unfold blocks
  change (off + 1 + 512 - 1) / 512 + (if 12 * 512 < off + 1 then 1 else 0) =
    (off + 512 - 1) / 512 + if 12 * 512 < off then 1 else 0
  change off % 512 ≠ 0 at h
  split <;> split <;> omega

theorem blocks_next (h : off % bsize = 0) :
    blocks (off + 1) = blocks off + 1 + if off / bsize = ndirect then 1 else 0 := by
  unfold blocks
  change (off + 1 + 512 - 1) / 512 + (if 12 * 512 < off + 1 then 1 else 0) =
    (off + 512 - 1) / 512 + (if 12 * 512 < off then 1 else 0) + 1 + if off / 512 = 12 then 1 else 0
  change off % 512 = 0 at h
  split <;> split <;> split <;> omega

/-- What `block` gives: the block of the byte at `off`, the first one that is not written yet. -/
structure Given (I : Nat → Prop) (i off : Nat) (m : Image) (d : Dinode) (m' : Image) (d' : Dinode) (x : Nat) : Prop where
  taken : Taken I i m d m' d'
  keeps : Keeps I (m.view i d) (m'.view i d')
  addr : (m'.view i d').addr i (place (off / bsize)) = x
  pos : x ≠ 0
  solid : Solid i (off + 1) (m'.view i d')
  count : m'.freeblock + blocks off = m.freeblock + blocks (off + 1)

theorem solid_next (hdata : ∀ bn, s.addr i (place bn) ≠ 0 ↔ bn * bsize < off) (hoff : off % bsize = 0)
    (hind : s.addr i ndirect ≠ 0 ↔ ndirect * bsize < off + 1) (hf : Fills I i (place (off / bsize)) b s t) (hi : I i)
    (hb : b ≠ 0) : Solid i (off + 1) t := by
  constructor
  · intro bn
    by_cases hbn : bn = off / bsize
    · subst hbn
      rw [hf.self]
      refine iff_of_true hb ?_
      change off / 512 * 512 < off + 1
      omega
    · rw [hf.others i _ hi fun hand => hbn (place_inj hand.2), hdata]
      change off % 512 = 0 at hoff
      change ¬bn = off / 512 at hbn
      change bn * 512 < off ↔ bn * 512 < off + 1
      omega
  · rw [hf.others i _ hi fun hand => place_ne _ hand.2.symm]
    exact hind

theorem view_addr (m : Image) (i : Nat) (d : Dinode) (p : Nat) : (m.view i d).addr i p = d.addr m.blk p := by
  unfold Fs.addr
  rw [view_node]
  rfl

section Block
variable {E : Assertion → Image → Prop}

theorem wp_direct_present {Q : Dinode → Image → Prop} (h0 : d.addrs k ≠ 0) (hQ : Q d m) : wp (direct d k) m Q E := by
  unfold direct
  rw [wp_ite]
  exact ⟨fun hz => absurd hz h0, fun _ => (wp_pure _).mpr hQ⟩

theorem wp_direct_absent {Q : Dinode → Image → Prop} (hz : d.addrs k = 0)
    (hQ : Q { d with addrs := update d.addrs k m.freeblock } { m with freeblock := m.freeblock + 1 }) :
    wp (direct d k) m Q E := by
  unfold direct nextBlock
  rw [wp_ite]
  refine ⟨fun _ => ?_, fun h0 => absurd hz h0⟩
  rw [wp_bind, wp_bind, wp_get, wp_bind, wp_modify, wp_pure, wp_pure]
  exact hQ

theorem wp_indirect_present {Q : Nat → Image → Prop} {bp : Nat} (h0 : word (m.disk bp) (4 * k) 4 ≠ 0)
    (hQ : Q (word (m.disk bp) (4 * k) 4) m) : wp (indirect bp k) m Q E := by
  unfold indirect rsect
  rw [wp_bind, wp_bind, wp_get, wp_pure, wp_ite]
  exact ⟨fun hz => absurd hz h0, fun _ => (wp_pure _).mpr hQ⟩

theorem wp_indirect_absent {Q : Nat → Image → Prop} {bp : Nat} (hz : word (m.disk bp) (4 * k) 4 = 0)
    (hQ : Q m.freeblock { m with freeblock := m.freeblock + 1
                                 disk := update m.disk bp (put (m.disk bp) (4 * k) (digits m.freeblock) 4) }) :
    wp (indirect bp k) m Q E := by
  unfold indirect rsect nextBlock wsect
  rw [wp_bind, wp_bind, wp_get, wp_pure, wp_ite]
  refine ⟨fun _ => ?_, fun h0 => absurd hz h0⟩
  rw [wp_bind, wp_bind, wp_get, wp_bind, wp_modify, wp_pure, wp_bind, wp_modify, wp_pure]
  exact hQ

variable {Q : Dinode × Nat → Image → Prop} (hs : (m.view i d).Held I) (hm : m.Blank) (hi : I i)
  (hsolid : Solid i off (m.view i d))
include hs hm hi hsolid

/-- The block is there, in the middle of what is written. -/
theorem wp_block_present (hmax : off < maxFile * bsize) (hoff : off % bsize ≠ 0)
    (hQ : Given I i off m d m d ((m.view i d).addr i (place (off / bsize))) →
      Q (d, (m.view i d).addr i (place (off / bsize))) m) : wp (block d (off / bsize)) m Q E := by
  have hlt : off / bsize < maxFile := block_lt hmax
  have h0 : (m.view i d).addr i (place (off / bsize)) ≠ 0 := by
    rw [hsolid.data]
    change off % 512 ≠ 0 at hoff
    change off / 512 * 512 < off
    omega
  have hnext : ∀ n, n * bsize < off ↔ n * bsize < off + 1 := by
    intro n
    change off % 512 ≠ 0 at hoff
    change n * 512 < off ↔ n * 512 < off + 1
    omega
  have hgiven : Given I i off m d m d ((m.view i d).addr i (place (off / bsize))) :=
    ⟨.refl hs hm, .refl I _, rfl, h0, ⟨fun n => (hsolid.data n).trans (hnext n), hsolid.indirect.trans (hnext _)⟩,
      by rw [blocks_same hoff]⟩
  have hQ := hQ hgiven
  rw [view_addr] at h0 hQ
  unfold block
  rw [wp_ite]
  refine ⟨fun hdir => ?_, fun hdir => ?_⟩
  · rw [place, if_pos hdir, Dinode.addr_direct (Nat.le_of_lt hdir)] at h0 hQ
    rw [wp_bind]
    exact wp_direct_present h0 ((wp_pure _).mpr hQ)
  · have hplace : place (off / bsize) = ndirect + 1 + (off / bsize - ndirect) := by
      rw [place, if_neg hdir]
      omega
    have hk : off / bsize - ndirect < nindirect := by
      change off / bsize < ndirect + nindirect at hlt
      omega
    have hind : d.addrs ndirect ≠ 0 := by
      intro hz
      refine h0 ?_
      unfold Dinode.addr
      rw [if_neg (by omega), if_neg fun hand => hand.2 hz]
    rw [hplace, Dinode.addr_indirect hk hind, (blk_indirect hs hi hind).2.2] at h0 hQ
    rw [wp_bind]
    refine wp_direct_present hind ?_
    rw [wp_bind]
    exact wp_indirect_present h0 ((wp_pure _).mpr hQ)

omit hsolid in
/-- A new block behind the direct ones. -/
theorem wp_indirect_next {Q : Nat → Image → Prop} (hdata : ∀ bn, (m.view i d).addr i (place bn) ≠ 0 ↔ bn * bsize < off)
    (hmax : off < maxFile * bsize) (hoff : off % bsize = 0) (hge : ¬off / bsize < ndirect) (hind : d.addrs ndirect ≠ 0)
    (hroom : m.freeblock < fsSize)
    (hQ : ∀ m', m'.freeblock = m.freeblock + 1 → Taken I i m d m' d → Keeps I (m.view i d) (m'.view i d) →
      (m'.view i d).addr i (place (off / bsize)) = m.freeblock → Solid i (off + 1) (m'.view i d) → Q m.freeblock m') :
    wp (indirect (d.addrs ndirect) (off / bsize - ndirect)) m Q E := by
  have hlt : off / bsize < maxFile := block_lt hmax
  have hpos : m.freeblock ≠ 0 := Nat.ne_of_gt (Nat.lt_of_lt_of_le (by decide) hm.first)
  have hplace : place (off / bsize) = ndirect + 1 + (off / bsize - ndirect) := by
    rw [place, if_neg hge]
    omega
  have hk : off / bsize - ndirect < nindirect := by
    change off / bsize < ndirect + nindirect at hlt
    omega
  have hz : (m.view i d).addr i (place (off / bsize)) = 0 := by
    by_contra h0
    rw [← ne_eq, hdata] at h0
    change off % 512 = 0 at hoff
    change off / 512 * 512 < off at h0
    omega
  have hword : word (m.disk (d.addrs ndirect)) (4 * (off / bsize - ndirect)) 4 = 0 := by
    rw [hplace, view_addr, Dinode.addr_indirect hk hind, (blk_indirect hs hi hind).2.2] at hz
    exact hz
  obtain ⟨hfills, htaken⟩ := taken_indirect hs hm hroom hi rfl hind hk hword
  rw [← hplace] at hfills
  have hset : (m.view i d).addr i ndirect ≠ 0 ↔ ndirect * bsize < off + 1 := by
    rw [view_addr, Dinode.addr_direct (Nat.le_refl _)]
    change ¬off / 512 < 12 at hge
    refine iff_of_true hind ?_
    change 12 * 512 < off + 1
    omega
  refine wp_indirect_absent hword (hQ _ rfl htaken ?_ hfills.self (solid_next hdata hoff hset hfills hi hpos))
  exact hfills.keeps hz hm.first

/-- The next block of the file is the next free one. -/
theorem wp_block_absent (hmax : off < maxFile * bsize) (hoff : off % bsize = 0)
    (hroom : m.freeblock + blocks (off + 1) ≤ fsSize + blocks off)
    (hQ : ∀ m' d' x, Given I i off m d m' d' x → Q (d', x) m') : wp (block d (off / bsize)) m Q E := by
  have hcount := blocks_next hoff
  have hpos : m.freeblock ≠ 0 := Nat.ne_of_gt (Nat.lt_of_lt_of_le (by decide) hm.first)
  have hz : (m.view i d).addr i (place (off / bsize)) = 0 := by
    by_contra h0
    rw [← ne_eq, hsolid.data] at h0
    change off / 512 * 512 < off at h0
    change off % 512 = 0 at hoff
    omega
  have hind : (m.view i d).addr i ndirect ≠ 0 ↔ ndirect < off / bsize := by
    rw [hsolid.indirect]
    change off % 512 = 0 at hoff
    change 12 * 512 < off ↔ 12 < off / 512
    omega
  unfold block
  rw [wp_ite]
  refine ⟨fun hdir => ?_, fun hdir => ?_⟩
  · have hplace : place (off / bsize) = off / bsize := if_pos hdir
    have hset : (m.view i d).addr i ndirect ≠ 0 ↔ ndirect * bsize < off + 1 := by
      rw [hind]
      change off / 512 < 12 at hdir
      change 12 < off / 512 ↔ 12 * 512 < off + 1
      omega
    have hza : d.addrs (off / bsize) = 0 := by
      rw [view_addr, hplace, Dinode.addr_direct (Nat.le_of_lt hdir)] at hz
      exact hz
    rw [if_neg (Nat.ne_of_lt hdir)] at hcount
    obtain ⟨hfills, htaken⟩ := taken_direct hs hm (by omega) (Nat.le_of_lt hdir) hza
    have hself : update d.addrs (off / bsize) m.freeblock (off / bsize) = m.freeblock := update_self ..
    rw [wp_bind]
    refine wp_direct_absent hza ((wp_pure _).mpr (hQ _ _ _ ?_))
    dsimp only
    rw [hself]
    have hfills' : Fills I i (place (off / bsize)) m.freeblock (m.view i d)
        (({ m with freeblock := m.freeblock + 1 } : Image).view i
          { d with addrs := update d.addrs (off / bsize) m.freeblock }) := by
      rw [hplace]
      exact hfills
    exact ⟨htaken, hfills'.keeps hz hm.first, hfills'.self, hpos, solid_next hsolid.data hoff hset hfills' hi hpos,
      by dsimp only; omega⟩
  · rw [wp_bind]
    by_cases hfirst : off / bsize = ndirect
    · -- the indirect block first, then the block itself
      have hza : d.addrs ndirect = 0 := by
        by_contra h0
        rw [view_addr, Dinode.addr_direct (Nat.le_refl _)] at hind
        exact absurd (hind.mp h0) (by omega)
      rw [if_pos hfirst] at hcount
      obtain ⟨hfills, htaken⟩ := taken_direct hs hm (by omega) (Nat.le_refl ndirect) hza
      have hself : update d.addrs ndirect m.freeblock ndirect = m.freeblock := update_self ..
      have haddr : (m.view i d).addr i ndirect = 0 := by rw [view_addr, Dinode.addr_direct (Nat.le_refl _), hza]
      refine wp_direct_absent hza ?_
      rw [wp_bind]
      refine wp_indirect_next htaken.grows.held htaken.blank hi (fun bn => ?_) hmax hoff hdir (by dsimp only; rwa [hself])
        (by dsimp only; omega) fun m' hm' htaken' hkeeps' haddr' hsolid' => (wp_pure _).mpr (hQ _ _ _ ?_)
      · rw [hfills.others i _ hi fun hand => place_ne bn hand.2]
        exact hsolid.data bn
      · exact ⟨htaken.trans htaken' hi, (hfills.keeps haddr hm.first).trans hkeeps', haddr', Nat.succ_ne_zero _, hsolid',
          by rw [hm']; dsimp only; omega⟩
    · have h0 : d.addrs ndirect ≠ 0 := by
        rw [view_addr, Dinode.addr_direct (Nat.le_refl _)] at hind
        exact hind.mpr (by omega)
      rw [if_neg hfirst] at hcount
      refine wp_direct_present h0 ?_
      rw [wp_bind]
      refine wp_indirect_next hs hm hi hsolid.data hmax hoff hdir h0 (by omega)
        fun m' hm' htaken' hkeeps' haddr' hsolid' => (wp_pure _).mpr (hQ _ _ _ ?_)
      exact ⟨htaken', hkeeps', haddr', hpos, hsolid', by rw [hm']; omega⟩

end Block

/-! ### The loop -/

/-- Bytes were put behind the first `off` ones. -/
structure Appended (I : Nat → Prop) (i : Nat) (src : Nat → UInt8) (off n : Nat) (m : Image) (d : Dinode) (m' : Image)
    (d' : Dinode) : Prop where
  taken : Taken I i m d m' d'
  puts : Puts I i src off n (m.view i d) (m'.view i d')
  solid : Solid i (off + n) (m'.view i d')
  count : m'.freeblock + blocks off = m.freeblock + blocks (off + n)

theorem Appended.zero (hs : (m.view i d).Held I) (hm : m.Blank) (hsolid : Solid i off (m.view i d)) :
    Appended I i src off 0 m d m d :=
  ⟨.refl hs hm, .zero I i src off _, hsolid, rfl⟩

theorem Grows.relog {l : List Nat} (h : Grows I i s t) : Grows I i s { t with logged := l } :=
  ⟨⟨h.held.number, h.held.range, h.held.unique, h.held.set, h.held.reserved⟩, h.node, h.fields, h.kept, h.others, h.tight,
    h.dinode, h.valid, h.ref, h.outstanding, h.fits⟩

theorem solid_within {l : Nat} (h : Solid i (off + 1) s) (hl : off < l) (hle : l ≤ (off / bsize + 1) * bsize) : Solid i l s := by
  have hnext : ∀ n, n * bsize < off + 1 ↔ n * bsize < l := by
    intro n
    change l ≤ (off / 512 + 1) * 512 at hle
    change n * 512 < off + 1 ↔ n * 512 < l
    omega
  exact ⟨fun bn => (h.data bn).trans (hnext bn), h.indirect.trans (hnext _)⟩

theorem blocks_within {l : Nat} (hl : off < l) (hle : l ≤ (off / bsize + 1) * bsize) : blocks l = blocks (off + 1) := by
  unfold blocks
  change l ≤ (off / 512 + 1) * 512 at hle
  change (l + 512 - 1) / 512 + (if 12 * 512 < l then 1 else 0) =
    (off + 1 + 512 - 1) / 512 + if 12 * 512 < off + 1 then 1 else 0
  split <;> split <;> omega

theorem blocks_mono {l : Nat} (h : off ≤ l) : blocks off ≤ blocks l := by
  unfold blocks
  change (off + 512 - 1) / 512 + (if 12 * 512 < off then 1 else 0) ≤ (l + 512 - 1) / 512 + if 12 * 512 < l then 1 else 0
  split <;> split <;> omega

theorem wp_block {E : Assertion → Image → Prop} {Q : Dinode × Nat → Image → Prop} (hs : (m.view i d).Held I) (hm : m.Blank)
    (hi : I i) (hsolid : Solid i off (m.view i d)) (hmax : off < maxFile * bsize)
    (hroom : m.freeblock + blocks (off + 1) ≤ fsSize + blocks off)
    (hQ : ∀ m' d' x, Given I i off m d m' d' x → Q (d', x) m') : wp (block d (off / bsize)) m Q E := by
  by_cases hoff : off % bsize = 0
  · exact wp_block_absent hs hm hi hsolid hmax hoff hroom hQ
  · exact wp_block_present hs hm hi hsolid hmax hoff (hQ m d _)

/-- One block is written. -/
theorem Given.write {l : Nat} (h : Given I i off m d m' d' x) (src : Nat → UInt8) (hi : I i) (hl : 0 < l)
    (hle : off + l ≤ (off / bsize + 1) * bsize) :
    Appended I i src off l m d { m' with disk := update m'.disk x (put (m'.disk x) (off - off / bsize * bsize) src l) } d' := by
  have hheld := h.taken.grows.held
  have h0 : (m'.view i d').addr i (place (off / bsize)) ≠ 0 := by rw [h.addr]; exact h.pos
  have hrange := hheld.range i _ hi h0
  have hset := hheld.set i _ hi h0
  rw [h.addr] at hrange hset
  have hlow : x < m'.freeblock := by
    rw [view_bit hrange.2, decide_eq_true_eq] at hset
    exact hset
  have hblk : (m'.view i d').blk x = m'.disk x := blk_disk (.inr hrange.1)
  have hmod : off - off / bsize * bsize = off % bsize := by
    change off - off / 512 * 512 = off % 512
    omega
  have hin : l ≤ bsize - off % bsize := by
    change off + l ≤ (off / 512 + 1) * 512 at hle
    change l ≤ 512 - off % 512
    omega
  rw [hmod, ← hblk]
  obtain ⟨y, hy⟩ : ∃ y, y = put ((m'.view i d').blk x) (off % bsize) src l := ⟨_, rfl⟩
  have hbytes := hheld.put_bytes hi h.addr h.pos h.keeps src hin
  have hgrows := (hheld.store hi h.addr h.pos y).1
  have haddr := fun q => hheld.store_addr hi h.addr h.pos y hi q
  rw [← hy] at hbytes ⊢
  have hview : ({ m' with disk := update m'.disk x y } : Image).view i d' = { (m'.view i d').setBlk x y with logged := [] } :=
    view_setBlk hrange.1
  refine ⟨h.taken.trans ⟨hview ▸ Grows.relog hgrows, ⟨h.taken.blank.first, fun b hb => ?_⟩, fun a ha => ?_, rfl⟩ hi, ?_, ?_, ?_⟩
  · exact (update_of_ne (by dsimp only at hb; omega) ..).trans (h.taken.blank.zero b hb)
  · exact update_of_ne (by omega) ..
  · rw [hview]
    exact hbytes
  · have hsolid : Solid i (off + 1) ({ (m'.view i d').setBlk x y with logged := [] } : Fs) :=
      ⟨fun bn => (congrArg (· ≠ 0) (haddr (place bn))).to_iff.trans (h.solid.data bn),
        (congrArg (· ≠ 0) (haddr ndirect)).to_iff.trans h.solid.indirect⟩
    rw [hview]
    exact solid_within hsolid (by omega) hle
  · rw [blocks_within (by omega) hle]
    exact h.count

theorem Appended.trans {l : Nat} {m'' : Image} {d'' : Dinode} (h : Appended I i src off l m d m' d')
    (h' : Appended I i (fun k => src (k + l)) (off + l) (n - l) m' d' m'' d'') (hi : I i) (hl : l ≤ n) :
    Appended I i src off n m d m'' d'' := by
  have hsum : off + l + (n - l) = off + n := by omega
  refine ⟨h.taken.trans h'.taken hi, .append h.puts h'.puts hl, hsum ▸ h'.solid, ?_⟩
  have := h'.count
  rw [hsum] at this
  have := h.count
  omega

theorem wp_appendLoop {rounds : Nat} (hs : (m.view i d).Held I) (hm : m.Blank) (hi : I i) (hsolid : Solid i off (m.view i d))
    (hn : n ≤ rounds) (hmax : off + n ≤ maxFile * bsize) (hroom : m.freeblock + blocks (off + n) ≤ fsSize + blocks off) :
    wp (appendLoop rounds d off src n) m (fun r m' => r.2 = off + n ∧ Appended I i src off n m d m' r.1)
      fun _ _ => False := by
  induction rounds generalizing m d off n src with
  | zero =>
    obtain rfl := Nat.le_zero.mp hn
    exact (wp_pure _).mpr ⟨rfl, .zero hs hm hsolid⟩
  | succ rounds ih =>
    rw [appendLoop, wp_ite]
    refine ⟨fun hz => ?_, fun hz => ?_⟩
    · subst hz
      exact (wp_pure _).mpr ⟨rfl, .zero hs hm hsolid⟩
    have hlt : off / bsize < maxFile := block_lt (by omega)
    have hroom1 := blocks_mono (show off + 1 ≤ off + n by omega)
    rw [wp_bind]
    refine wp_assert hlt ?_
    rw [wp_bind]
    refine wp_block hs hm hi hsolid (by omega) (by omega) fun m' d' x hgiven => ?_
    obtain ⟨l, hl⟩ : ∃ l, l = min n ((off / bsize + 1) * bsize - off) := ⟨_, rfl⟩
    have hfit : off < (off / bsize + 1) * bsize := by
      change off < (off / 512 + 1) * 512
      omega
    have hwrite := hgiven.write src hi (show 0 < l by omega) (by omega)
    have hsum : off + l + (n - l) = off + n := by omega
    have hcount := hwrite.count
    dsimp only
    unfold rsect wsect
    rw [wp_bind, wp_bind, wp_get, wp_pure, wp_bind, wp_modify, ← hl]
    refine wp_mono (ih hwrite.taken.grows.held hwrite.taken.blank hwrite.solid (by omega) (by omega) (by rw [hsum]; omega))
      (fun r m'' hr => ?_) fun _ _ he => he
    exact ⟨hr.1.trans hsum, hwrite.trans hr.2 hi (by omega)⟩

end Xv6.Disk.Mkfs
