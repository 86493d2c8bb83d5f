import AdvancedXv6.Disk.Arrays
import AdvancedXv6.Disk.Calls
import Mathlib.Data.List.Count

/-! The invariant of the file system between calls, and that every operation on inodes keeps it. -/

namespace Xv6.Disk
open Function Effect Bytes
variable {I : Nat → Prop} {H : List Nat} {s t u : Fs} {i j a b c n off p q bn k : Nat} {x : Block} {src : Nat → UInt8}
  {dev : Bool} {io : Option (List UInt8)} {f : Dinode → Dinode}

namespace Fs

/-- An inode with a type. -/
def Alloc (s : Fs) (i : Nat) : Prop := i < ninodes ∧ (s.node i).type ≠ 0

/-- A block is in use in the map if and only if it is reserved or held by one place of one inode. -/
structure Exact (s : Fs) : Prop where
  held : Held s.Alloc s
  tight : ∀ b, nmeta ≤ b → b < fsSize → s.bit b = true → ∃ i p, s.Alloc i ∧ s.addr i p = b

/-- No inode has a hole. -/
def Dense (s : Fs) : Prop := ∀ i bn, s.Alloc i → bn * bsize < (s.node i).size → s.addr i (place bn) ≠ 0

/-- The inode number of an entry of a directory. -/
def inum (s : Fs) (i k : Nat) : Nat := word (s.byte i) (direntSize * k) 2

/-- The entries of directories have the numbers of inodes. -/
def Names (s : Fs) : Prop := ∀ i k, s.Alloc i → (s.node i).type = tDir → direntSize * k + direntSize ≤ (s.node i).size →
  s.inum i k < ninodes

structure Sound (s : Fs) : Prop where
  exact : s.Exact
  dense : s.Dense
  names : s.Names
  synced : ∀ i, s.valid i = true → i < ninodes ∧ s.dinode i = s.ip i
  live : ∀ i, s.valid i = true → (s.ip i).type ≠ 0
  refs : ∀ i, 1 ≤ s.ref i → i < ninodes

/-- The call has the references `H`. -/
structure Good (H : List Nat) (s : Fs) : Prop extends Sound s where
  owned : ∀ i, H.count i ≤ s.ref i

/-- What is locked stays locked. -/
structure Stays (H : List Nat) (s t : Fs) : Prop where
  locked : ∀ i ∈ H, s.valid i = true → t.valid i = true ∧ (t.ip i).type = (s.ip i).type
  outstanding : t.outstanding = s.outstanding

theorem Stays.refl (H : List Nat) (s : Fs) : Stays H s s := ⟨fun _ _ hv => ⟨hv, rfl⟩, rfl⟩

theorem Stays.trans (h : Stays H s t) (h' : Stays H t u) : Stays H s u := by
  refine ⟨fun i hi hv => ?_, h'.outstanding.trans h.outstanding⟩
  obtain ⟨hvt, htype⟩ := h.locked i hi hv
  obtain ⟨hvu, htype'⟩ := h'.locked i hi hvt
  exact ⟨hvu, htype'.trans htype⟩

theorem Stays.mono {H' : List Nat} (h : Stays H s t) (hsub : H' ⊆ H) : Stays H' s t :=
  ⟨fun i hi => h.locked i (hsub hi), h.outstanding⟩

theorem Good.number (h : s.Good H) (hi : i ∈ H) : i < ninodes :=
  h.refs i (Nat.le_trans (List.count_pos_iff.mpr hi) (h.owned i))

namespace Sound

theorem node_eq_dinode (h : s.Sound) (i : Nat) : s.node i = s.dinode i := by
  unfold node
  split
  · exact (h.synced i ‹_›).2.symm
  · rfl

theorem fits (h : s.Sound) (i : Nat) : (s.node i).Fits := by
  rw [h.node_eq_dinode]
  exact Dinode.load_fits ..

theorem ip_fits (h : s.Sound) (hv : s.valid i = true) : (s.ip i).Fits := by
  rw [← node_eq hv]
  exact h.fits i

theorem alloc (h : s.Sound) (hv : s.valid i = true) : s.Alloc i := by
  refine ⟨(h.synced i hv).1, ?_⟩
  rw [node_eq hv]
  exact h.live i hv

theorem size_le (h : s.Sound) (hi : s.Alloc i) : (s.node i).size ≤ maxFile * bsize := by
  by_contra hlt
  have haddr := addr_le (h.dense i maxFile hi (Nat.lt_of_not_le hlt))
  exact absurd haddr (by decide)

/-- Every inode is as before, or it has no block and no byte. -/
theorem build (h : s.Sound)
    (hold : ∀ j, t.Alloc j → (s.Alloc j ∧ (t.node j).type = (s.node j).type ∧ (t.node j).size = (s.node j).size ∧
      (∀ q, t.addr j q = s.addr j q) ∧ ∀ k, t.byte j k = s.byte j k) ∨ (t.node j).size = 0 ∧ ∀ q, t.addr j q = 0)
    (hset : ∀ j q, t.Alloc j → t.addr j q ≠ 0 → t.bit (t.addr j q) = true) (hreserved : ∀ b, b < nmeta → t.bit b = true)
    (htight : ∀ b, nmeta ≤ b → b < fsSize → t.bit b = true → ∃ i p, t.Alloc i ∧ t.addr i p = b)
    (hsynced : ∀ i, t.valid i = true → i < ninodes ∧ t.dinode i = t.ip i)
    (hlive : ∀ i, t.valid i = true → (t.ip i).type ≠ 0) (hrefs : ∀ i, 1 ≤ t.ref i → i < ninodes) : t.Sound := by
  have hused : ∀ j q, t.Alloc j → t.addr j q ≠ 0 → s.Alloc j ∧ t.addr j q = s.addr j q := by
    intro j q hj hq
    obtain hsame | hnew := hold j hj
    · exact ⟨hsame.1, hsame.2.2.2.1 q⟩
    · exact absurd (hnew.2 q) hq
  refine ⟨⟨⟨fun i hi => hi.1, fun i p hi hp => ?_, fun i p j q hi hj hp heq => ?_, hset, hreserved⟩, htight⟩, ?_, ?_,
    hsynced, hlive, hrefs⟩
  · obtain ⟨hi', heq⟩ := hused i p hi hp
    rw [heq] at hp ⊢
    exact h.exact.held.range i p hi' hp
  · obtain ⟨hi', heqi⟩ := hused i p hi hp
    obtain ⟨hj', heqj⟩ := hused j q hj (heq ▸ hp)
    rw [heqi] at hp heq
    rw [heqj] at heq
    exact h.exact.held.unique i p j q hi' hj' hp heq
  · intro i bn hi hbn
    obtain ⟨hi', -, hsize, haddr, -⟩ | ⟨hsize, -⟩ := hold i hi
    · rw [hsize] at hbn
      rw [haddr]
      exact h.dense i bn hi' hbn
    · rw [hsize] at hbn
      exact absurd hbn (Nat.not_lt_zero _)
  · intro i k hi hdir hk
    obtain ⟨hi', htype, hsize, -, hbyte⟩ | ⟨hsize, -⟩ := hold i hi
    · rw [htype] at hdir
      rw [hsize] at hk
      unfold inum
      rw [word_congr fun k _ _ => hbyte k]
      exact h.names i k hi' hdir hk
    · rw [hsize] at hk
      exact absurd hk (Nat.not_le_of_lt (Nat.succ_pos _))

/-- Nothing changes that the inodes and the map show, except the numbers of links. -/
theorem same (h : s.Sound) (htype : ∀ j, (t.node j).type = (s.node j).type) (hsize : ∀ j, (t.node j).size = (s.node j).size)
    (haddrs : ∀ j, (t.node j).addrs = (s.node j).addrs) (hblk : ∀ a, nmeta ≤ a → t.blk a = s.blk a)
    (hbit : ∀ c, c < fsSize → t.bit c = s.bit c) (hsynced : ∀ i, t.valid i = true → i < ninodes ∧ t.dinode i = t.ip i)
    (hlive : ∀ i, t.valid i = true → (t.ip i).type ≠ 0) (hrefs : ∀ i, 1 ≤ t.ref i → i < ninodes) : t.Sound := by
  have halloc : t.Alloc = s.Alloc := by
    funext j
    unfold Alloc
    rw [htype]
  have hsame : Same s.Alloc s t := ⟨fun j _ => haddrs j, hblk⟩
  have haddr : ∀ j q, s.Alloc j → t.addr j q = s.addr j q := fun j q hj => h.exact.held.addr_same hsame hj q
  have hheld := h.exact.held.same hsame hbit
  refine h.build (fun j hj => ?_) (fun j q hj => ?_) hheld.reserved (fun b hb hlt hset => ?_) hsynced hlive hrefs
  · rw [halloc] at hj
    exact .inl ⟨hj, htype j, hsize j, fun q => haddr j q hj, h.exact.held.byte_same hsame hj⟩
  · rw [halloc] at hj
    exact hheld.set j q hj
  · rw [hbit b hlt] at hset
    obtain ⟨i, p, hi, hp⟩ := h.exact.tight b hb hlt hset
    exact ⟨i, p, halloc ▸ hi, (haddr i p hi).trans hp⟩

end Sound

/-- A file system that differs in the cache only. -/
theorem Sound.same_node (h : s.Sound) (hblk : t.blk = s.blk) (hnode : ∀ j, t.node j = s.node j)
    (hsynced : ∀ i, t.valid i = true → i < ninodes ∧ t.dinode i = t.ip i)
    (hlive : ∀ i, t.valid i = true → (t.ip i).type ≠ 0) (hrefs : ∀ i, 1 ≤ t.ref i → i < ninodes) : t.Sound := by
  refine h.same (fun j => by rw [hnode]) (fun j => by rw [hnode]) (fun j => by rw [hnode]) (fun a _ => by rw [hblk])
    (fun c _ => ?_) hsynced hlive hrefs
  unfold bit
  rw [hblk]

end Fs

/-- The panics that the invariant does not exclude. -/
def Harmless (e : Panic) (_ : Fs) : Prop := e ≠ .freeing ∧ e ≠ .outside ∧ e ≠ .bmap

section Spec
open Fs

/-! ### The inode cache -/

theorem wp_iget (h : s.Good H) (hi : i < ninodes) :
    wp (iget i) s (fun _ t => t.Good (i :: H) ∧ s.Stays H t) Harmless := by
  unfold iget
  rw [wp_modify]
  obtain ⟨t, ht⟩ : ∃ t : Fs, t = { s with
      valid := if s.ref i = 0 then update s.valid i false else s.valid, ref := update s.ref i (s.ref i + 1) } := ⟨_, rfl⟩
  have hvalid : ∀ j, t.valid j = true → s.valid j = true := by
    intro j hj
    rw [ht] at hj
    dsimp only at hj
    split at hj
    · by_cases hji : j = i
      · rw [hji, update_self] at hj
        cases hj
      · rw [update_of_ne hji] at hj
        exact hj
    · exact hj
  have hdinode : ∀ j, t.dinode j = s.dinode j := fun j => by rw [ht]; rfl
  have hip : t.ip = s.ip := by rw [ht]
  have hnode : ∀ j, t.node j = s.node j := by
    intro j
    rw [h.node_eq_dinode, ← hdinode]
    unfold node
    split
    · rw [hip, hdinode, (h.synced j (hvalid j ‹_›)).2]
    · rfl
  rw [← ht]
  refine ⟨⟨h.same_node (by rw [ht]) hnode (fun j hj => ?_) (fun j hj => ?_) (fun j hj => ?_), fun j => ?_⟩,
    fun j hj hv => ⟨?_, by rw [hip]⟩, by rw [ht]⟩
  · rw [hdinode, hip]
    exact h.synced j (hvalid j hj)
  · rw [hip]
    exact h.live j (hvalid j hj)
  · by_cases hji : j = i
    · exact hji ▸ hi
    · rw [ht] at hj
      dsimp only at hj
      rw [update_of_ne hji] at hj
      exact h.refs j hj
  · rw [ht]
    by_cases hji : j = i
    · subst hji
      rw [List.count_cons_self]
      dsimp only
      rw [update_self]
      exact Nat.succ_le_succ (h.owned j)
    · rw [List.count_cons_of_ne (Ne.symm hji)]
      dsimp only
      rw [update_of_ne hji]
      exact h.owned j
  · have hpos : s.ref j ≠ 0 := Nat.ne_of_gt (Nat.lt_of_lt_of_le (List.count_pos_iff.mpr hj) (h.owned j))
    rw [ht]
    dsimp only
    split
    · rename_i h0
      rw [update_of_ne fun hji : j = i => hpos (hji ▸ h0)]
      exact hv
    · exact hv

theorem wp_idup (h : s.Good H) (hi : 1 ≤ s.ref i) :
    wp (idup i) s (fun _ t => t.Good (i :: H) ∧ s.Stays H t) Harmless := by
  unfold idup
  rw [wp_modify]
  refine ⟨⟨h.same_node rfl (fun _ => rfl) h.synced h.live fun j hj => ?_, fun j => ?_⟩, fun j _ hv => ⟨hv, rfl⟩, rfl⟩
  · by_cases hji : j = i
    · exact h.refs j (hji ▸ hi)
    · dsimp only at hj
      rw [update_of_ne hji] at hj
      exact h.refs j hj
  · dsimp only
    by_cases hji : j = i
    · subst hji
      rw [List.count_cons_self, update_self]
      exact Nat.succ_le_succ (h.owned j)
    · rw [List.count_cons_of_ne (Ne.symm hji), update_of_ne hji]
      exact h.owned j

theorem wp_ilock (h : s.Good H) (hi : i < ninodes) :
    wp (ilock i) s (fun _ t => t.Good H ∧ s.Stays H t ∧ t.valid i = true) Harmless := by
  unfold ilock
  rw [wp_bind, wp_get, wp_ite]
  refine ⟨fun hv => ?_, fun hv => ?_⟩
  · rw [wp_bind, wp_modify, wp_ite]
    refine ⟨fun _ => (wp_throw _).mpr ⟨by decide, by decide, by decide⟩, fun htype => ?_⟩
    rw [wp_pure]
    obtain ⟨t, ht⟩ : ∃ t : Fs, t = { s with ip := update s.ip i (s.dinode i), valid := update s.valid i true } := ⟨_, rfl⟩
    have hdinode : ∀ j, t.dinode j = s.dinode j := fun j => by rw [ht]; rfl
    have hself : t.ip i = s.dinode i := by rw [ht]; exact update_self ..
    have hne : ∀ j, j ≠ i → t.ip j = s.ip j ∧ t.valid j = s.valid j := by
      intro j hj
      rw [ht]
      exact ⟨update_of_ne hj .., update_of_ne hj ..⟩
    have hvt : t.valid i = true := by rw [ht]; exact update_self ..
    rw [← ht]
    refine ⟨⟨h.same_node (by rw [ht]) (fun j => ?_) (fun j hj => ?_) (fun j hj => ?_) ?_, ?_⟩, ⟨fun j _ hvj => ?_, by rw [ht]⟩, hvt⟩
    · by_cases hji : j = i
      · rw [hji, node_eq hvt, hself, h.node_eq_dinode]
      · unfold node
        rw [(hne j hji).1, (hne j hji).2, hdinode]
    · by_cases hji : j = i
      · rw [hji, hself, hdinode]
        exact ⟨hi, rfl⟩
      · rw [(hne j hji).2] at hj
        rw [(hne j hji).1, hdinode]
        exact h.synced j hj
    · by_cases hji : j = i
      · rw [hji, hself]
        exact htype
      · rw [(hne j hji).2] at hj
        rw [(hne j hji).1]
        exact h.live j hj
    · rw [ht]
      exact h.refs
    · rw [ht]
      exact h.owned
    · have hji : j ≠ i := by
        rintro rfl
        rw [hvj] at hv
        cases hv
      rw [(hne j hji).1, (hne j hji).2]
      exact ⟨hvj, rfl⟩
  · rw [wp_pure]
    exact ⟨h, .refl H s, by simpa using hv⟩

/-! ### Updates -/

theorem wp_change (h : s.Good H) (hv : s.valid i = true) (hout : 1 ≤ s.outstanding)
    (hf : ∀ d, (f d).type = d.type ∧ (f d).size = d.size ∧ (f d).addrs = d.addrs) (hfit : ∀ d, d.Fits → (f d).Fits) :
    wp (change i f) s (fun _ t => t.Good H ∧ s.Stays H t) Harmless := by
  have hi := (h.synced i hv).1
  unfold change setIp
  rw [wp_bind, wp_modify]
  refine wp_iupdate (s := s.setIp i f) hout ?_
  obtain ⟨w, hw⟩ : ∃ w, w = s.setIp i f := ⟨_, rfl⟩
  have hwi : w.ip i = f (s.ip i) := by rw [hw, setIp_self]
  have hwj : ∀ j, j ≠ i → w.ip j = s.ip j := by
    intro j hj
    rw [hw]
    exact update_of_ne hj ..
  have hvw : w.valid = s.valid := by rw [hw]; rfl
  have hvi : w.valid i = true := by rw [hvw]; exact hv
  have hnode : ∀ j, (w.updated i).node j = if j = i then f (s.node i) else s.node j := by
    intro j
    rw [updated_node hvi]
    by_cases hji : j = i
    · rw [if_pos hji, hji, node_eq hvi, node_eq hv, hwi]
    · rw [if_neg hji, hw, setIp_node hji]
  have hfield : ∀ j, ((w.updated i).node j).type = (s.node j).type ∧ ((w.updated i).node j).size = (s.node j).size ∧
      ((w.updated i).node j).addrs = (s.node j).addrs := by
    intro j
    rw [hnode]
    by_cases hji : j = i
    · rw [if_pos hji, hji]
      exact hf _
    · rw [if_neg hji]
      exact ⟨rfl, rfl, rfl⟩
  rw [← hw]
  refine ⟨⟨h.same (fun j => (hfield j).1) (fun j => (hfield j).2.1) (fun j => (hfield j).2.2) (fun a ha => ?_)
    (fun c hc => ?_) (fun j hj => ?_) (fun j hj => ?_) ?_, ?_⟩, fun j _ hvj => ⟨?_, ?_⟩, ?_⟩
  · rw [stored_blk hi (.inr (Nat.le_trans bmapstart_le.2.1 ha)), hw]
    rfl
  · rw [stored_bit hi hc, hw, setIp_bit]
  · have hvj : s.valid j = true := by rw [← hvw]; exact hj
    refine ⟨(h.synced j hvj).1, ?_⟩
    by_cases hji : j = i
    · subst hji
      refine stored_self ?_
      rw [hwi]
      exact hfit _ (h.ip_fits hv)
    · rw [stored_dinode hji]
      refine Eq.trans ?_ (hwj j hji).symm
      rw [← (h.synced j hvj).2, hw]
      rfl
  · have hvj : s.valid j = true := by rw [← hvw]; exact hj
    change (w.ip j).type ≠ 0
    by_cases hji : j = i
    · rw [hji, hwi, (hf _).1]
      exact h.live i hv
    · rw [hwj j hji]
      exact h.live j hvj
  · rw [hw]
    exact h.refs
  · rw [hw]
    exact h.owned
  · change w.valid j = true
    rw [hvw]
    exact hvj
  · change (w.ip j).type = (s.ip j).type
    by_cases hji : j = i
    · rw [hji, hwi, (hf _).1]
    · rw [hwj j hji]
  · rw [hw]
    rfl

end Spec

end Xv6.Disk
