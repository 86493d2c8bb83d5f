import AdvancedXv6.Disk.Append

/-! The image that `mkfs` makes: what holds after each inode and each piece of a file, read as the kernel reads it. -/

namespace Xv6.Disk.Mkfs
open Function Effect Bytes Fs
variable {m m' : Image} {d : Dinode} {i j a b n p off : Nat} {c : Nat → List UInt8} {src : Nat → UInt8} {I : Nat → Prop}

/-- The kernel on a disk, before it has read anything. -/
def coldFs (blk : Nat → Block) : Fs where
  blk := blk
  ip _ := ⟨0, 0, 0, 0, 0, fun _ => 0⟩
  valid _ := false
  ref _ := 0
  outstanding := 0
  logged := []

def Image.boot (m : Image) : Fs := coldFs m.blk

/-- The inodes that are taken. -/
def Image.Used (m : Image) (i : Nat) : Prop := 1 ≤ i ∧ i < m.freeinode

theorem cold_node (blk : Nat → Block) (i : Nat) : (coldFs blk).node i = Dinode.load (blk (iblock i)) (ioff i) := rfl

theorem boot_node (m : Image) (hi : i < ninodes) : m.boot.node i = m.dinode i := by
  unfold Image.boot Image.dinode
  rw [cold_node, blk_disk (.inl (iblock_range hi).2)]

theorem boot_bit (hb : b < fsSize) : m.boot.bit b = decide (b < m.freeblock) := view_bit (i := 0) (d := ⟨0, 0, 0, 0, 0, fun _ => 0⟩) hb

/-- The inode is read into memory. -/
theorem boot_view (m : Image) (hI : ∀ j, I j → j < ninodes) (i : Nat) : Same I m.boot (m.view i (m.dinode i)) := by
  refine ⟨fun j hj => ?_, fun _ _ => rfl⟩
  rw [boot_node m (hI j hj)]
  by_cases hji : j = i
  · rw [hji, view_node]
  · rw [view_node_ne hji, ← boot_node m (hI j hj)]
    rfl

/-- The image after `winode`. -/
def Image.stored (m : Image) (i : Nat) (d : Dinode) : Image :=
  { m with disk := update m.disk (iblock i) (d.store (m.disk (iblock i)) (ioff i)) }

theorem stored_disk (ha : a ≠ iblock i) : (m.stored i d).disk a = m.disk a := by
  unfold Image.stored
  dsimp only
  rw [update_of_ne ha]

theorem boot_stored (m : Image) (hi : i < ninodes) (d : Dinode) :
    (m.stored i d).boot = { m.boot.stored i d with logged := [] } := by
  have hrange := iblock_range hi
  have hblk : (m.stored i d).blk = update m.blk (iblock i) (d.store (m.blk (iblock i)) (ioff i)) := by
    unfold Image.stored
    funext n
    by_cases hn : n = iblock i
    · rw [hn, blk_disk (.inl hrange.2), update_self, blk_disk (.inl hrange.2)]
      dsimp only
      rw [update_self]
    · rw [update_of_ne hn]
      unfold Image.blk
      dsimp only
      rw [update_of_ne hn]
  unfold Image.boot Fs.stored Fs.setBlk coldFs
  rw [hblk]

theorem boot_dinode (m : Image) (i : Nat) : m.boot.node i = m.boot.dinode i := if_neg Bool.false_ne_true

theorem relog_dinode (s : Fs) (l : List Nat) (i : Nat) : ({ s with logged := l } : Fs).dinode i = s.dinode i := rfl

theorem stored_node_self (hi : i < ninodes) (hd : d.Fits) : (m.stored i d).boot.node i = d := by
  rw [boot_dinode, boot_stored m hi, relog_dinode, stored_self hd]

theorem stored_node_ne (hi : i < ninodes) (hji : j ≠ i) : (m.stored i d).boot.node j = m.boot.node j := by
  rw [boot_dinode, boot_stored m hi, relog_dinode, stored_dinode hji, boot_dinode]

theorem stored_data (hi : i < ninodes) (ha : nmeta ≤ a) : (m.stored i d).boot.blk a = m.boot.blk a := by
  rw [boot_stored m hi]
  exact stored_blk hi (.inr (Nat.le_trans bmapstart_le.2.1 ha))

/-- The inodes up to the next one have the contents `c`; the blocks up to the next one are theirs. -/
structure Made (m : Image) (c : Nat → List UInt8) : Prop where
  super : ∀ k, k < 4 * (superWords sb).length → m.disk 1 k = superBytes sb k
  map : ∀ a, sb.bmapstart ≤ a → a < nmeta → m.disk a = fun _ => 0
  blank : m.Blank
  room : m.freeblock ≤ fsSize
  first : 1 ≤ m.freeinode
  held : m.boot.Held m.Used
  tight : ∀ b, nmeta ≤ b → b < m.freeblock → ∃ i p, m.Used i ∧ m.boot.addr i p = b
  unused : ∀ i, i < ninodes → ¬m.Used i → (m.dinode i).type = 0
  type : ∀ i, m.Used i → (m.dinode i).type = if i = rootIno then tDir else tFile
  size : ∀ i, m.Used i → (m.dinode i).size = (c i).length
  solid : ∀ i, m.Used i → Solid i (c i).length m.boot
  byte : ∀ i k, m.Used i → m.boot.byte i k = (c i).getD k 0

theorem Solid.congr {s t : Fs} (h : Solid i n s) (ha : ∀ q, t.addr i q = s.addr i q) : Solid i n t :=
  ⟨fun bn => by rw [ha]; exact h.data bn, by rw [ha]; exact h.indirect⟩

theorem getD_append_range (l : List UInt8) (k : Nat) :
    (l ++ (List.range n).map src).getD k 0 = if l.length ≤ k ∧ k < l.length + n then src (k - l.length) else l.getD k 0 := by
  by_cases hlow : l.length ≤ k
  · rw [List.getD_append_right _ _ _ _ hlow]
    by_cases hhigh : k < l.length + n
    · rw [if_pos ⟨hlow, hhigh⟩, List.getD_eq_getElem _ _ (by simp; omega), List.getElem_map, List.getElem_range]
    · rw [if_neg fun hand => hhigh hand.2, List.getD_eq_default _ _ (by simp; omega), List.getD_eq_default _ _ hlow]
  · rw [if_neg fun hand => hlow hand.1, List.getD_append _ _ _ _ (Nat.lt_of_not_le hlow)]

section Iappend
variable (h : Made m c) (hi : m.Used i)
include h hi

/-- The bytes are put behind the content of the inode. -/
theorem Made.append {d' : Dinode} (hroom : m'.freeblock ≤ fsSize) (happ : Appended m.Used i src (c i).length n m (m.dinode i) m' d')
    (hmax : (c i).length + n < 2 ^ 32) :
    Made (m'.stored i { d' with size := (c i).length + n }) (update c i (c i ++ (List.range n).map src)) := by
  obtain ⟨dd, hdd⟩ : ∃ dd : Dinode, dd = { d' with size := (c i).length + n } := ⟨_, rfl⟩
  rw [← hdd]
  obtain ⟨m'', hm''⟩ : ∃ m'', m'' = m'.stored i dd := ⟨_, rfl⟩
  rw [← hm'']
  have hnum := h.held.number
  have hused : m''.Used = m.Used := by
    funext j
    unfold Image.Used
    rw [hm'', ← happ.taken.freeinode]
    rfl
  have hview := boot_view m hnum i
  have hboot : m''.boot = { m'.boot.stored i dd with logged := [] } := by rw [hm'', boot_stored m' (hnum i hi)]
  have hgrows := happ.taken.grows
  have hfit : dd.Fits := by
    have hd' := hgrows.fits i (by rw [view_ip]; exact Dinode.load_fits ..)
    rw [view_ip] at hd'
    rw [hdd]
    exact ⟨hd'.type, hd'.major, hd'.minor, hd'.nlink, hmax, hd'.addrs, hd'.rest⟩
  have hself : m''.boot.node i = dd := by rw [hm'', stored_node_self (hnum i hi) hfit]
  have hothers : ∀ j, j < ninodes → j ≠ i → m''.boot.node j = m.boot.node j := by
    intro j hj hne
    rw [hm'', stored_node_ne (hnum i hi) hne, boot_dinode, boot_dinode]
    exact hgrows.dinode j hj
  have hsame : Same m.Used (m'.view i d') m''.boot := by
    refine ⟨fun j hj => ?_, fun a ha => ?_⟩
    · by_cases hji : j = i
      · rw [hji, hself, view_node, hdd]
      · rw [hothers j (hnum j hj) hji, hgrows.node j (hnum j hj) hji, view_node_ne hji, boot_dinode]
        rfl
    · rw [hm'', stored_data (hnum i hi) ha]
      rfl
  have haddr' := fun j q hj => hgrows.held.addr_same (j := j) hsame hj q
  have hbyte' := fun j k hj => hgrows.held.byte_same (j := j) hsame hj k
  have haddr := fun j q hj => h.held.addr_same (j := j) hview hj q
  have hbyte := fun j k hj => h.held.byte_same (j := j) hview hj k
  have hkeep : ∀ j q, m.Used j → j ≠ i → m''.boot.addr j q = m.boot.addr j q := by
    intro j q hj hne
    rw [haddr' j q hj, hgrows.others j q hj hne, haddr j q hj]
  have hlen : (c i ++ (List.range n).map src).length = (c i).length + n := by
    rw [List.length_append, List.length_map, List.length_range]
  have hblocks : m''.freeblock = m'.freeblock := by
    rw [hm'']
    rfl
  have hdisk : ∀ a, a ≠ iblock i → m''.disk a = m'.disk a := by
    intro a ha
    rw [hm'', stored_disk ha]
  have hrange := iblock_range (hnum i hi)
  have hmeta := bmapstart_le
  have hnode : ∀ j, m.Used j → (m''.boot.node j).type = (m.boot.node j).type := by
    intro j hj
    by_cases hji : j = i
    · have hfields := congrArg Dinode.type hgrows.fields
      rw [view_node, view_node] at hfields
      rw [hji, hself, hdd, boot_node m (hnum i hi)]
      exact hfields
    · rw [hothers j (hnum j hj) hji]
  constructor
  · intro k hk
    have hone : 1 ≠ iblock i := Nat.ne_of_lt (Nat.lt_of_lt_of_le (by decide) hrange.1)
    rw [hdisk 1 hone, happ.taken.reserved 1 (by decide)]
    exact h.super k hk
  · intro a ha hlt
    rw [hdisk a (by omega), happ.taken.reserved a hlt]
    exact h.map a ha hlt
  · refine ⟨hblocks ▸ happ.taken.blank.first, fun b hb => ?_⟩
    have hfirst := happ.taken.blank.first
    rw [hblocks] at hb
    rw [hdisk b (by omega)]
    exact happ.taken.blank.zero b hb
  · exact hblocks ▸ hroom
  · have hnext : m''.freeinode = m.freeinode := by
      rw [hm'', ← happ.taken.freeinode]
      rfl
    exact hnext ▸ h.first
  · rw [hused]
    refine hgrows.held.same hsame fun b hb => ?_
    rw [boot_bit hb, hblocks]
    exact (view_bit hb).symm
  · intro b hb hlt
    rw [hblocks] at hlt
    rw [hused]
    have hbs := Nat.lt_of_lt_of_le hlt hroom
    have hset : (m'.view i d').bit b = true := by rw [view_bit hbs, decide_eq_true hlt]
    obtain hold | ⟨q, hq⟩ := hgrows.tight b hb hbs hset
    · rw [view_bit hbs, decide_eq_true_eq] at hold
      obtain ⟨j, q, hj, hq⟩ := h.tight b hb hold
      refine ⟨j, q, hj, ?_⟩
      have hpos : (m.view i (m.dinode i)).addr j q ≠ 0 := by
        rw [haddr j q hj, hq]
        exact Nat.ne_of_gt (Nat.lt_of_lt_of_le (by decide) hb)
      rw [haddr' j q hj, hgrows.kept j q hj hpos, haddr j q hj, hq]
    · exact ⟨i, q, hi, (haddr' i q hi).trans hq⟩
  · intro j hj hnot
    rw [hused] at hnot
    have hji : j ≠ i := fun heq => hnot (heq ▸ hi)
    rw [← boot_node m'' hj, hothers j hj hji, boot_node m hj]
    exact h.unused j hj hnot
  · intro j hj
    rw [hused] at hj
    rw [← boot_node m'' (hnum j hj), hnode j hj, boot_node m (hnum j hj)]
    exact h.type j hj
  · intro j hj
    rw [hused] at hj
    rw [← boot_node m'' (hnum j hj)]
    by_cases hji : j = i
    · rw [hji, update_self, hself, hdd, hlen]
    · rw [update_of_ne hji, hothers j (hnum j hj) hji, boot_node m (hnum j hj)]
      exact h.size j hj
  · intro j hj
    rw [hused] at hj
    by_cases hji : j = i
    · subst hji
      rw [update_self, hlen]
      exact Solid.congr happ.solid fun q => haddr' j q hj
    · rw [update_of_ne hji]
      exact (h.solid j hj).congr fun q => hkeep j q hj hji
  · intro j k hj
    rw [hused] at hj
    rw [hbyte' j k hj, happ.puts j k hj, hbyte j k hj, h.byte j k hj]
    by_cases hji : j = i
    · subst hji
      rw [update_self, getD_append_range]
      exact if_congr (and_iff_right rfl) rfl rfl
    · rw [update_of_ne hji, if_neg fun hand => hji hand.1]

end Iappend

/-- The inode that `ialloc` writes. -/
def empty (type : Nat) : Dinode := ⟨type, 0, 0, 1, 0, fun _ => 0⟩

theorem empty_fits {type : Nat} (h : type < 2 ^ 16) : (empty type).Fits := by
  have hzero : 0 < 2 ^ 16 := by decide
  have hone : 1 < 2 ^ 16 := by decide
  have hword : 0 < 2 ^ 32 := by decide
  exact ⟨h, hzero, hzero, hone, hword, fun _ => hword, fun _ _ => rfl⟩

theorem Made.alloc {type : Nat} (h : Made m c) (hlt : m.freeinode < ninodes)
    (htype : type = if m.freeinode = rootIno then tDir else tFile) :
    Made (({ m with freeinode := m.freeinode + 1 } : Image).stored m.freeinode (empty type)) (update c m.freeinode []) := by
  obtain ⟨i, hi⟩ : ∃ i, i = m.freeinode := ⟨_, rfl⟩
  obtain ⟨m', hm'⟩ : ∃ m', m' = ({ m with freeinode := m.freeinode + 1 } : Image).stored m.freeinode (empty type) := ⟨_, rfl⟩
  rw [← hm']
  have hnum := h.held.number
  have hused : ∀ j, m'.Used j ↔ j = i ∨ m.Used j := by
    intro j
    have hfirst := h.first
    rw [hm']
    change 1 ≤ j ∧ j < m.freeinode + 1 ↔ j = i ∨ 1 ≤ j ∧ j < m.freeinode
    omega
  have hnew : ¬m.Used i := fun hand => absurd hand.2 (by omega)
  have hself : m'.boot.node i = empty type := by
    have hsmall : type < 2 ^ 16 := by
      rw [htype]
      split <;> decide
    rw [hm', hi, stored_node_self hlt (empty_fits hsmall)]
  have hothers : ∀ j, j ≠ i → m'.boot.node j = m.boot.node j := by
    intro j hj
    rw [hm', stored_node_ne hlt (hi ▸ hj)]
    rfl
  have hblocks : m'.freeblock = m.freeblock := by
    rw [hm']
    rfl
  have hne : ∀ j, m.Used j → j ≠ i := fun j hj hji => hnew (hji ▸ hj)
  have hsame : Same m.Used m.boot m'.boot := by
    refine ⟨fun j hj => by rw [hothers j (hne j hj)], fun a ha => ?_⟩
    rw [hm', stored_data hlt ha]
    rfl
  have haddr := fun j q hj => h.held.addr_same (j := j) hsame hj q
  have hbyte := fun j k hj => h.held.byte_same (j := j) hsame hj k
  have hzero : ∀ q, m'.boot.addr i q = 0 := by
    intro q
    unfold Fs.addr
    rw [hself]
    exact Dinode.addr_zero fun _ _ => rfl
  have hheld := h.held.same hsame fun b hb => by rw [boot_bit hb, boot_bit hb, hblocks]
  have hrange := iblock_range hlt
  have hmeta := bmapstart_le
  have hdisk : ∀ a, a ≠ iblock m.freeinode → m'.disk a = m.disk a := by
    intro a ha
    rw [hm', stored_disk ha]
  have hholder : ∀ j q, m'.Used j → m'.boot.addr j q ≠ 0 → m.Used j := by
    intro j q hj h0
    obtain rfl | hj := (hused j).mp hj
    · exact absurd (hzero q) h0
    · exact hj
  constructor
  · intro k hk
    have hone : 1 ≠ iblock m.freeinode := Nat.ne_of_lt (Nat.lt_of_lt_of_le (by decide) hrange.1)
    rw [hdisk 1 hone]
    exact h.super k hk
  · intro a ha hlt
    rw [hdisk a (by omega)]
    exact h.map a ha hlt
  · have hfirst := h.blank.first
    refine ⟨hblocks ▸ hfirst, fun b hb => ?_⟩
    rw [hblocks] at hb
    rw [hdisk b (by omega)]
    exact h.blank.zero b hb
  · exact hblocks ▸ h.room
  · rw [hm']
    exact Nat.le_add_left ..
  · refine ⟨fun j hj => ?_, fun j q hj h0 => ?_, fun j q j' q' hj hj' h0 heq => ?_, fun j q hj h0 => ?_, hheld.reserved⟩
    · obtain rfl | hj := (hused j).mp hj
      · exact hi ▸ hlt
      · exact hnum j hj
    · exact hheld.range j q (hholder j q hj h0) h0
    · exact hheld.unique j q j' q' (hholder j q hj h0) (hholder j' q' hj' (heq ▸ h0)) h0 heq
    · exact hheld.set j q (hholder j q hj h0) h0
  · intro b hb hb'
    rw [hblocks] at hb'
    obtain ⟨j, q, hj, hq⟩ := h.tight b hb hb'
    exact ⟨j, q, (hused j).mpr (.inr hj), (haddr j q hj).trans hq⟩
  · intro j hj hnot
    have hor := mt (hused j).mpr hnot
    rw [← boot_node m' hj, hothers j fun hji => hor (.inl hji), boot_node m hj]
    exact h.unused j hj fun hold => hor (.inr hold)
  · intro j hj
    obtain rfl | hj := (hused j).mp hj
    · rw [← boot_node m' (hi ▸ hlt), hself, hi]
      exact htype
    · rw [← boot_node m' (hnum j hj), hothers j (hne j hj), boot_node m (hnum j hj)]
      exact h.type j hj
  · intro j hj
    rw [← hi]
    obtain rfl | hj := (hused j).mp hj
    · rw [← boot_node m' (hi ▸ hlt), hself, update_self]
      rfl
    · rw [← boot_node m' (hnum j hj), hothers j (hne j hj), boot_node m (hnum j hj), update_of_ne (hne j hj)]
      exact h.size j hj
  · intro j hj
    rw [← hi]
    obtain rfl | hj := (hused j).mp hj
    · rw [update_self]
      exact ⟨fun bn => iff_of_false (fun h0 => h0 (hzero _)) (Nat.not_lt_zero _),
        iff_of_false (fun h0 => h0 (hzero _)) (Nat.not_lt_zero _)⟩
    · rw [update_of_ne (hne j hj)]
      exact (h.solid j hj).congr fun q => haddr j q hj
  · intro j k hj
    rw [← hi]
    obtain rfl | hj := (hused j).mp hj
    · rw [update_self]
      exact if_pos (hzero _)
    · rw [update_of_ne (hne j hj), hbyte j k hj]
      exact h.byte j k hj

theorem wp_ialloc {Q : Nat → Image → Prop} {E : Assertion → Image → Prop} {type : Nat} (h : Made m c)
    (hlt : m.freeinode < ninodes) (htype : type = if m.freeinode = rootIno then tDir else tFile)
    (hQ : ∀ m', Made m' (update c m.freeinode []) → m'.freeinode = m.freeinode + 1 → m'.freeblock = m.freeblock →
      Q m.freeinode m') : wp (ialloc type) m Q E := by
  unfold ialloc winode rsect wsect
  rw [wp_bind, wp_get, wp_bind, wp_modify, wp_bind, wp_bind, wp_bind, wp_get, wp_pure, wp_modify, wp_pure]
  exact hQ _ (h.alloc hlt htype) rfl rfl

theorem wp_iappend {Q : Unit → Image → Prop} (h : Made m c) (hi : m.Used i) (hmax : (c i).length + n ≤ maxFile * bsize)
    (hroom : m.freeblock + blocks ((c i).length + n) ≤ fsSize + blocks (c i).length)
    (hQ : ∀ m', Made m' (update c i (c i ++ (List.range n).map src)) → m'.freeinode = m.freeinode →
      m'.freeblock + blocks (c i).length = m.freeblock + blocks ((c i).length + n) → Q () m') :
    wp (iappend i src n) m Q fun _ _ => False := by
  have hnum := h.held.number
  have hview := boot_view m hnum i
  have hheld := h.held.same hview fun b hb => (view_bit hb).trans (boot_bit hb).symm
  have hsolid : Solid i (c i).length (m.view i (m.dinode i)) := (h.solid i hi).congr fun q => h.held.addr_same hview hi q
  have hcap : maxFile * bsize < 2 ^ 32 := by decide
  unfold iappend rinode winode rsect wsect
  rw [wp_bind, wp_bind, wp_get, wp_pure, h.size i hi]
  apply wp_seq (wp_appendLoop hheld h.blank hi hsolid (Nat.le_refl n) hmax hroom)
  rintro ⟨d', off⟩ m' ⟨rfl, happ⟩
  dsimp only
  rw [wp_bind, wp_bind, wp_get, wp_pure, wp_modify]
  have hcount := happ.count
  exact hQ _ (h.append hi (by omega) happ (by omega)) happ.taken.freeinode hcount

end Xv6.Disk.Mkfs
