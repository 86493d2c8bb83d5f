import AdvancedXv6.Disk.Alloc
import AdvancedXv6.Disk.Logged

/-! `itrunc`: every block of an inode is given back. -/

namespace Xv6.Disk
open Function Effect Bytes
variable {I : Nat → Prop} {s t u : Fs} {i j a b c n p q k : Nat} {P : Nat → Prop}

namespace Fs

/-- The state in which `bfree` has given `b` back. -/
def release (s : Fs) (b : Nat) : Fs := s.setBlk (bblock b) (clearBit (s.blk (bblock b)) (b % bpb))

theorem release_blk (hb : b < fsSize) (ha : a < sb.bmapstart ∨ nmeta ≤ a) : (s.release b).blk a = s.blk a := by
  have hrange := bblock_range hb
  exact setBlk_of_ne (by omega) ..

theorem release_bit : (s.release b).bit c = if c = b then false else s.bit c := by
  unfold release bit
  by_cases hmap : bblock c = bblock b
  · rw [hmap, setBlk_self, bit_clearBit]
    refine if_congr ⟨fun hmod => ?_, fun heq => by rw [heq]⟩ rfl rfl
    change c / 4096 + 6458 = b / 4096 + 6458 at hmap
    change c % 4096 = b % 4096 at hmod
    omega
  · rw [setBlk_of_ne hmap, if_neg fun heq => hmap (by rw [heq])]

/-- The blocks at the places `P` of inode `i` are free again. -/
structure Cleared (i : Nat) (P : Nat → Prop) (s u : Fs) : Prop where
  blk : ∀ a, a < sb.bmapstart ∨ nmeta ≤ a → u.blk a = s.blk a
  bit : ∀ c, c < fsSize → (u.bit c = true ↔ s.bit c = true ∧ ¬∃ p, P p ∧ s.addr i p = c ∧ c ≠ 0)
  valid : u.valid = s.valid
  ref : u.ref = s.ref
  outstanding : u.outstanding = s.outstanding
  logs : Logs (fun _ => False) s u

theorem Cleared.congr {P' : Nat → Prop} (h : Cleared i P s u) (hP : ∀ p, s.addr i p ≠ 0 → (P' p ↔ P p)) :
    Cleared i P' s u := by
  refine ⟨h.blk, fun c hc => (h.bit c hc).trans ?_, h.valid, h.ref, h.outstanding, h.logs⟩
  refine and_congr_right fun _ => not_congr (exists_congr fun p => ?_)
  constructor
  · rintro ⟨hp, hpc, h0⟩
    exact ⟨(hP p (hpc ▸ h0)).mpr hp, hpc, h0⟩
  · rintro ⟨hp, hpc, h0⟩
    exact ⟨(hP p (hpc ▸ h0)).mp hp, hpc, h0⟩

theorem Cleared.bit_place (h : Cleared i P s u) (hs : Held I s) (hi : I i) (hp : ¬P p) (h0 : s.addr i p ≠ 0) :
    u.bit (s.addr i p) = true := by
  refine (h.bit _ (hs.range i p hi h0).2).mpr ⟨hs.set i p hi h0, ?_⟩
  rintro ⟨q, hq, heq, -⟩
  exact hp ((hs.unique i p i q hi hi h0 heq.symm).2 ▸ hq)

theorem Cleared.release (h : Cleared i P s u) (hs : Held I s) (hi : I i) (h0 : s.addr i p ≠ 0) :
    Cleared i (fun q => q = p ∨ P q) s (u.release (s.addr i p)) := by
  have hlt := (hs.range i p hi h0).2
  refine ⟨fun a ha => (release_blk hlt ha).trans (h.blk a ha), fun c hc => ?_, h.valid, h.ref, h.outstanding,
    h.logs.setBlk (.inl (bblock_mem hlt)) _⟩
  rw [release_bit]
  by_cases heq : c = s.addr i p
  · rw [if_pos heq]
    refine iff_of_false Bool.false_ne_true fun hand => hand.2 ⟨p, .inl rfl, heq.symm, heq ▸ h0⟩
  · rw [if_neg heq, h.bit c hc]
    refine and_congr_right fun _ => not_congr (exists_congr fun q => ?_)
    refine and_congr_left fun hq => ⟨.inr, fun hor => hor.resolve_left fun hqp => heq ?_⟩
    rw [← hq.1, hqp]

/-! ### What does not change -/

/-- The addresses of the inodes are the same, and so is the data area. -/
structure Same (I : Nat → Prop) (s t : Fs) : Prop where
  addrs : ∀ j, I j → (t.node j).addrs = (s.node j).addrs
  blk : ∀ a, nmeta ≤ a → t.blk a = s.blk a

theorem Held.addr_same (h : Held I s) (hst : Same I s t) (hj : I j) (q : Nat) : t.addr j q = s.addr j q := by
  unfold addr
  refine Dinode.addr_congr (hst.addrs j hj) (fun hd => hst.blk _ ?_) q
  have hind : s.addr j ndirect = (s.node j).addrs ndirect := Dinode.addr_direct (Nat.le_refl _)
  rw [← hind] at hd ⊢
  exact (h.range j _ hj hd).1

theorem Held.byte_same (h : Held I s) (hst : Same I s t) (hj : I j) (k : Nat) : t.byte j k = s.byte j k := by
  unfold byte
  rw [h.addr_same hst hj]
  split
  · rfl
  · rename_i hk
    rw [hst.blk _ (h.range j _ hj hk).1]

theorem Held.same (h : Held I s) (hst : Same I s t) (hbit : ∀ c, c < fsSize → t.bit c = s.bit c) : Held I t where
  number := h.number
  range j q hj hq := by
    rw [h.addr_same hst hj] at hq ⊢
    exact h.range j q hj hq
  unique j q j' q' hj hj' hq heq := by
    rw [h.addr_same hst hj] at hq heq
    rw [h.addr_same hst hj'] at heq
    exact h.unique j q j' q' hj hj' hq heq
  set j q hj hq := by
    rw [h.addr_same hst hj] at hq ⊢
    rw [hbit _ (h.range j q hj hq).2]
    exact h.set j q hj hq
  reserved c hc := by
    rw [hbit c (Nat.lt_of_lt_of_le hc bmapstart_le.2.2)]
    exact h.reserved c hc

/-- The state in which `d` is written as the inode `i` of the disk. -/
def stored (s : Fs) (i : Nat) (d : Dinode) : Fs := s.setBlk (iblock i) (d.store (s.blk (iblock i)) (ioff i))

/-- The state after `iupdate`. -/
abbrev updated (s : Fs) (i : Nat) : Fs := s.stored i (s.ip i)

section Stored
variable {d : Dinode}

theorem stored_blk (hi : i < ninodes) (ha : a < sb.inodestart ∨ sb.bmapstart ≤ a) : (s.stored i d).blk a = s.blk a := by
  have hrange := iblock_range hi
  exact setBlk_of_ne (by omega) ..

theorem stored_bit (hi : i < ninodes) (hc : c < fsSize) : (s.stored i d).bit c = s.bit c := by
  unfold bit
  rw [stored_blk hi (.inr (bblock_range hc).1)]

theorem Logs.updated (h : Logs P s t) (hi : P (iblock i)) : Logs P s (t.updated i) := h.setBlk (.inr hi) _

theorem stored_self (hfit : d.Fits) : (s.stored i d).dinode i = d := by
  unfold dinode stored
  rw [setBlk_self]
  exact Dinode.load_store hfit ..

theorem stored_dinode (hj : j ≠ i) : (s.stored i d).dinode j = s.dinode j := by
  unfold dinode stored
  by_cases heq : iblock j = iblock i
  · rw [heq, setBlk_self]
    exact Dinode.load_store_ne (ioff_disjoint hj heq)
  · rw [setBlk_of_ne heq]

end Stored

theorem updated_node (hv : s.valid i = true) : (s.updated i).node j = s.node j := by
  by_cases hj : j = i
  · subst hj
    rw [node_eq hv]
    exact node_eq hv
  · unfold node
    rw [stored_dinode hj]
    rfl

theorem updated_same (hi : i < ninodes) (hv : s.valid i = true) : Same I s (s.updated i) :=
  ⟨fun _ _ => congrArg Dinode.addrs (updated_node hv), fun _ ha => stored_blk hi (.inr (Nat.le_trans bmapstart_le.2.1 ha))⟩

/-! ### Truncation -/

/-- The blocks at the places `P` of inode `i` are given back, and its addresses among them are 0. -/
structure Emptied (i : Nat) (P : Nat → Prop) (s u : Fs) : Prop extends Cleared i P s u where
  others : ∀ j, j ≠ i → u.ip j = s.ip j
  self : u.ip i = { s.ip i with addrs := (u.ip i).addrs }
  zero : ∀ m, m ≤ ndirect → P m → (u.ip i).addrs m = 0
  kept : ∀ m, m ≤ ndirect → ¬P m → (u.ip i).addrs m = (s.ip i).addrs m
  rest : ∀ m, ndirect < m → (u.ip i).addrs m = (s.ip i).addrs m

theorem setIp_bit (s : Fs) (f : Dinode → Dinode) : (s.setIp i f).bit c = s.bit c := rfl

theorem addr_valid (hv : s.valid i = true) (hk : k ≤ ndirect) : s.addr i k = (s.ip i).addrs k := by
  unfold addr
  rw [Dinode.addr_direct hk, node_eq hv]

theorem Emptied.congr {P' : Nat → Prop} (h : Emptied i P s u) (hv : s.valid i = true)
    (hP : ∀ p, s.addr i p ≠ 0 → (P' p ↔ P p)) : Emptied i P' s u := by
  have hnull : ∀ m, m ≤ ndirect → s.addr i m = 0 → (u.ip i).addrs m = 0 := by
    intro m hm h0
    by_cases hpm : P m
    · exact h.zero m hm hpm
    · rw [h.kept m hm hpm, ← addr_valid hv hm, h0]
  refine ⟨h.toCleared.congr hP, h.others, h.self, fun m hm hpm => ?_, fun m hm hpm => ?_, h.rest⟩
  · by_cases h0 : s.addr i m = 0
    · exact hnull m hm h0
    · exact h.zero m hm ((hP m h0).mp hpm)
  · by_cases h0 : s.addr i m = 0
    · rw [hnull m hm h0, ← addr_valid hv hm, h0]
    · exact h.kept m hm fun hp => hpm ((hP m h0).mpr hp)

theorem Emptied.start (hv : s.valid i = true) (hP : ∀ p, s.addr i p ≠ 0 → ¬P p) : Emptied i P s s := by
  have hnone : Emptied i (fun _ => False) s s :=
    ⟨⟨fun _ _ => rfl, fun c _ => ⟨fun hc => ⟨hc, fun hp => hp.choose_spec.1⟩, And.left⟩, rfl, rfl, rfl, .refl _ s⟩,
      fun _ _ => rfl, rfl, fun _ _ hp => hp.elim, fun _ _ _ => rfl, fun _ _ => rfl⟩
  exact hnone.congr hv fun p h0 => iff_of_false (hP p h0) id

/-- A block of the indirect block. -/
theorem Emptied.release (h : Emptied i P s u) (hs : Held I s) (hi : I i) (hp : ndirect < p) (h0 : s.addr i p ≠ 0) :
    Emptied i (fun q => q = p ∨ P q) s (u.release (s.addr i p)) := by
  refine ⟨h.toCleared.release hs hi h0, h.others, h.self, fun m hm hor => ?_, fun m hm hnot => ?_, h.rest⟩
  · exact h.zero m hm (hor.resolve_left (by omega))
  · exact h.kept m hm fun hpm => hnot (.inr hpm)

theorem addr_le (h0 : s.addr i p ≠ 0) : p ≤ ndirect + nindirect := by
  by_contra hlt
  refine h0 ?_
  unfold addr Dinode.addr
  rw [if_neg (by omega), if_neg fun hand => hlt hand.1]

theorem addr_none (h : s.addr i ndirect = 0) (hp : ndirect ≤ p) : s.addr i p = 0 := by
  unfold addr at h
  rw [Dinode.addr_direct (Nat.le_refl _)] at h
  unfold addr Dinode.addr
  split
  · rw [show p = ndirect by omega, h]
  · rw [if_neg fun hand => hand.2 h]

/-- Inode `i` has no block and no byte; the other inodes and their content are the same. -/
structure Truncated (I : Nat → Prop) (i : Nat) (s t : Fs) : Prop where
  node : ∀ j, I j → j ≠ i → t.node j = s.node j
  self : t.ip i = { s.ip i with addrs := fun _ => 0, size := 0 }
  ip : ∀ j, j ≠ i → t.ip j = s.ip j
  disk : t.dinode i = t.ip i
  dinode : ∀ j, j < ninodes → j ≠ i → t.dinode j = s.dinode j
  addr : ∀ j q, I j → j ≠ i → t.addr j q = s.addr j q
  none : ∀ q, t.addr i q = 0
  byte : ∀ j k, I j → j ≠ i → t.byte j k = s.byte j k
  bit : ∀ c, c < fsSize → (t.bit c = true ↔ s.bit c = true ∧ ¬∃ p, s.addr i p = c ∧ c ≠ 0)
  valid : t.valid = s.valid
  ref : t.ref = s.ref
  outstanding : t.outstanding = s.outstanding
  logs : Logs (· = iblock i) s t

theorem Truncated.held (h : Truncated I i s t) (hs : Held I s) (hi : I i) : Held I t where
  number := hs.number
  range j q hj hq := by
    by_cases hji : j = i
    · exact absurd (hji ▸ h.none q) hq
    · rw [h.addr j q hj hji] at hq ⊢
      exact hs.range j q hj hq
  unique j q j' q' hj hj' hq heq := by
    have hji : j ≠ i := by
      rintro rfl
      exact hq (h.none q)
    have hji' : j' ≠ i := by
      rintro rfl
      exact hq (heq.trans (h.none q'))
    rw [h.addr j q hj hji] at hq heq
    rw [h.addr j' q' hj' hji'] at heq
    exact hs.unique j q j' q' hj hj' hq heq
  set j q hj hq := by
    have hji : j ≠ i := by
      rintro rfl
      exact hq (h.none q)
    rw [h.addr j q hj hji] at hq ⊢
    refine (h.bit _ (hs.range j q hj hq).2).mpr ⟨hs.set j q hj hq, ?_⟩
    rintro ⟨p, hp, -⟩
    exact hji (hs.unique j q i p hj hi hq hp.symm).1
  reserved c hc := by
    refine (h.bit c (Nat.lt_of_lt_of_le hc bmapstart_le.2.2)).mpr ⟨hs.reserved c hc, ?_⟩
    rintro ⟨p, rfl, h0⟩
    exact absurd hc (Nat.not_lt_of_le (hs.range i p hi h0).1)

/-- What `itrunc` does once every block is given back. -/
theorem Emptied.truncated {P : Nat → Prop} (h : Emptied i P s u) (hP : ∀ p, P p) (hs : Held I s) (hi : I i)
    (hv : s.valid i = true) (hfit : (s.ip i).Fits) :
    Truncated I i s ((u.setIp i fun d => { d with size := 0 }).updated i) := by
  have hlt := hs.number i hi
  obtain ⟨w, hw⟩ : ∃ w, w = u.setIp i fun d => { d with size := 0 } := ⟨_, rfl⟩
  have hwi : w.ip i = { s.ip i with addrs := fun _ => 0, size := 0 } := by
    have haddrs : (u.ip i).addrs = fun _ => 0 := by
      funext m
      by_cases hm : m ≤ ndirect
      · exact h.zero m hm (hP m)
      · exact (h.rest m (Nat.lt_of_not_le hm)).trans (hfit.rest m (Nat.lt_of_not_le hm))
    rw [hw, setIp_self, h.self, haddrs]
  have hwj : ∀ j, j ≠ i → w.ip j = s.ip j := by
    intro j hj
    rw [← h.others j hj, hw]
    exact update_of_ne hj ..
  have hwfit : (w.ip i).Fits := by
    rw [hwi]
    exact ⟨hfit.type, hfit.major, hfit.minor, hfit.nlink, Nat.two_pow_pos 32, fun _ => Nat.two_pow_pos 32, fun _ _ => rfl⟩
  have hblk : ∀ a, a < sb.bmapstart ∨ nmeta ≤ a → w.blk a = s.blk a := by
    rw [hw]
    exact h.blk
  have hdinode : ∀ j, j < ninodes → w.dinode j = s.dinode j := by
    intro j hj
    unfold dinode
    rw [hblk _ (.inl (iblock_range hj).2)]
  have hwv : w.valid = s.valid := by
    rw [hw]
    exact h.valid
  have hvw : w.valid i = true := by
    rw [hwv]
    exact hv
  have hnode : ∀ j, I j → j ≠ i → (w.updated i).node j = s.node j := by
    intro j hj hji
    rw [updated_node hvw]
    unfold node
    rw [hwv, hwj j hji, hdinode j (hs.number j hj)]
  have hblk' : ∀ a, nmeta ≤ a → (w.updated i).blk a = s.blk a := by
    intro a ha
    rw [stored_blk hlt (.inr (Nat.le_trans bmapstart_le.2.1 ha)), hblk a (.inr ha)]
  rw [← hw]
  have hothers : Held (fun k => I k ∧ k ≠ i) s := hs.subset fun j hj => hj.1
  have hsame : Same (fun k => I k ∧ k ≠ i) s (w.updated i) :=
    ⟨fun j hj => congrArg Dinode.addrs (hnode j hj.1 hj.2), hblk'⟩
  constructor
  · exact hnode
  · exact hwi
  · exact hwj
  · exact stored_self hwfit
  · intro j hj hji
    rw [stored_dinode hji, hdinode j hj]
  · intro j q hj hji
    exact hothers.addr_same hsame ⟨hj, hji⟩ q
  · intro q
    have hdir : (w.updated i).node i = w.ip i := (updated_node hvw).trans (node_eq hvw)
    unfold addr
    rw [hdir, hwi]
    exact Dinode.addr_zero fun _ _ => rfl
  · intro j k hj hji
    exact hothers.byte_same hsame ⟨hj, hji⟩ k
  · intro c hc
    rw [stored_bit hlt hc, hw, setIp_bit, h.bit c hc]
    refine and_congr_right fun _ => not_congr (exists_congr fun p => ?_)
    exact ⟨fun hp => hp.2, fun hp => ⟨hP p, hp⟩⟩
  · exact hwv
  · rw [hw]
    exact h.ref
  · rw [hw]
    exact h.outstanding
  · have hlogs : Logs (· = iblock i) s w := (h.logs.mono fun _ hf => hf.elim).congr (by rw [hw]; rfl)
    exact hlogs.updated rfl

end Fs

theorem wp_iupdate {Q : Unit → Fs → Prop} {E : Panic → Fs → Prop} (hout : 1 ≤ s.outstanding)
    (hQ : Q () (s.updated i)) : wp (iupdate i) s Q E := by
  unfold iupdate
  rw [wp_bind, wp_get]
  exact wp_logWrite hout hQ

theorem wp_bfree {Q : Unit → Fs → Prop} {E : Panic → Fs → Prop} (hout : 1 ≤ s.outstanding)
    (hbit : s.bit b = true) (hQ : Q () (s.release b)) : wp (bfree b) s Q E := by
  unfold bfree
  rw [wp_bind, wp_get]
  dsimp only
  rw [wp_ite]
  refine ⟨fun hclear => ?_, fun _ => wp_logWrite hout hQ⟩
  rw [hbit] at hclear
  cases hclear

section Spec
variable {Q : Unit → Fs → Prop} {E : Panic → Fs → Prop} (hs : s.Held I) (hi : I i) (hv : s.valid i = true)
  (hout : 1 ≤ s.outstanding)
include hs hi hv hout

/-- One direct address, or the indirect one. -/
theorem wp_drop (h : s.Emptied i P u) (hk : k ≤ ndirect) (hp : ¬P k) (h0 : (u.ip i).addrs k ≠ 0)
    (hQ : ∀ t, s.Emptied i (fun q => q = k ∨ P q) t → Q () t) :
    wp (do bfree ((u.ip i).addrs k); setIp i fun d => { d with addrs := update d.addrs k 0 }) u Q E := by
  have haddr : (u.ip i).addrs k = s.addr i k := (h.kept k hk hp).trans (Fs.addr_valid hv hk).symm
  rw [haddr] at h0 ⊢
  rw [wp_bind]
  apply wp_bfree (h.outstanding ▸ hout) (h.bit_place hs hi hp h0)
  unfold setIp
  rw [wp_modify]
  generalize ht : ((u.release (s.addr i k)).setIp i fun d => { d with addrs := update d.addrs k 0 }) = t
  have hip : t.ip i = { u.ip i with addrs := update (u.ip i).addrs k 0 } := by
    rw [← ht]
    exact Fs.setIp_self ..
  have hclear := h.toCleared.release hs hi h0
  apply hQ t
  constructor
  · constructor
    · rw [← ht]
      exact hclear.blk
    · intro c hc
      rw [← hclear.bit c hc, ← ht, Fs.setIp_bit]
    · rw [← ht]
      exact hclear.valid
    · rw [← ht]
      exact hclear.ref
    · rw [← ht]
      exact hclear.outstanding
    · exact hclear.logs.congr (by rw [← ht]; rfl)
  · intro j hj
    rw [← h.others j hj, ← ht]
    exact update_of_ne hj ..
  · rw [hip, h.self]
  · rintro m hm (rfl | hpm)
    · rw [hip]
      exact update_self ..
    · rw [hip]
      dsimp only
      rw [update_of_ne fun hmk : m = k => hp (hmk ▸ hpm)]
      exact h.zero m hm hpm
  · intro m hm hpm
    rw [hip]
    dsimp only
    rw [update_of_ne fun hmk => hpm (.inl hmk)]
    exact h.kept m hm fun hp' => hpm (.inr hp')
  · intro m hm
    rw [hip]
    dsimp only
    rw [update_of_ne (by omega)]
    exact h.rest m hm

theorem wp_truncDirect (hQ : ∀ t, s.Emptied i (· < ndirect) t → Q () t) :
    wp (forEach (List.range ndirect) fun k => do
      let addr := ((← get).ip i).addrs k
      if addr ≠ 0 then
        bfree addr
        setIp i fun d => { d with addrs := update d.addrs k 0 }) s Q E := by
  have hloop := wp_forEach (E := E) (f := fun k => do
      let addr := ((← get).ip i).addrs k
      if addr ≠ 0 then
        bfree addr
        setIp i fun d => { d with addrs := update d.addrs k 0 })
    (I := fun xs u => s.Emptied i (fun p => p < ndirect ∧ p ∉ xs) u ∧ xs.Nodup ∧ ∀ k ∈ xs, k < ndirect) (s := s) ?_
    (List.range ndirect) ⟨.start hv fun p _ hp => hp.2 (List.mem_range.mpr hp.1), List.nodup_range, fun k => List.mem_range.mp⟩
  · refine wp_mono hloop (fun _ t ht => hQ t (ht.1.congr hv fun p _ => ?_)) fun _ _ he => he
    exact ⟨fun hp => ⟨hp, List.not_mem_nil⟩, And.left⟩
  · intro k xs u hu
    obtain ⟨hempty, hnodup, hlt⟩ := hu
    have hk : k < ndirect := hlt k List.mem_cons_self
    have hnot : ¬(k < ndirect ∧ k ∉ k :: xs) := fun hp => hp.2 List.mem_cons_self
    have hnext : ∀ p, (p < ndirect ∧ p ∉ xs) ↔ p = k ∨ p < ndirect ∧ p ∉ k :: xs := by
      intro p
      have hkx := (List.nodup_cons.mp hnodup).1
      rw [List.mem_cons, not_or]
      constructor
      · rintro ⟨hp, hpx⟩
        by_cases hpk : p = k
        · exact .inl hpk
        · exact .inr ⟨hp, hpk, hpx⟩
      · rintro (rfl | ⟨hp, -, hpx⟩)
        · exact ⟨hk, hkx⟩
        · exact ⟨hp, hpx⟩
    have hrest : xs.Nodup ∧ ∀ k ∈ xs, k < ndirect :=
      ⟨(List.nodup_cons.mp hnodup).2, fun m hm => hlt m (List.mem_cons_of_mem k hm)⟩
    rw [wp_bind, wp_get]
    dsimp only
    rw [wp_ite]
    refine ⟨fun h0 => ?_, fun h0 => ?_⟩
    · apply wp_drop hs hi hv hout hempty (Nat.le_of_lt hk) hnot h0
      exact fun t ht => ⟨ht.congr hv fun p _ => hnext p, hrest⟩
    · rw [wp_pure]
      refine ⟨hempty.congr hv fun p hp => (hnext p).trans ⟨fun hor => hor.resolve_left ?_, .inr⟩, hrest⟩
      rintro rfl
      rw [Fs.addr_valid hv (Nat.le_of_lt hk), ← hempty.kept p (Nat.le_of_lt hk) hnot] at hp
      exact h0 hp

theorem wp_truncIndirect (hu : s.Emptied i (· < ndirect) u) (h0 : s.addr i ndirect ≠ 0)
    (hQ : ∀ t, s.Emptied i (· ≠ ndirect) t → Q () t) :
    wp (forEach (List.range nindirect) fun j => do
      let addr := word ((← get).blk (s.addr i ndirect)) (4 * j) 4
      if addr ≠ 0 then bfree addr) u Q E := by
  have hloop := wp_forEach (E := E) (f := fun j => do
      let addr := word ((← get).blk (s.addr i ndirect)) (4 * j) 4
      if addr ≠ 0 then bfree addr)
    (I := fun xs u => s.Emptied i (fun p => p ≠ ndirect ∧ ∀ j ∈ xs, p ≠ ndirect + 1 + j) u ∧ xs.Nodup ∧
      ∀ j ∈ xs, j < nindirect) (s := u) ?_
    (List.range nindirect) ⟨hu.congr hv fun p hp => ?_, List.nodup_range, fun j => List.mem_range.mp⟩
  · refine wp_mono hloop (fun _ t ht => hQ t (ht.1.congr hv fun p _ => ?_)) fun _ _ he => he
    exact ⟨fun hp => ⟨hp, fun j hj => absurd hj List.not_mem_nil⟩, And.left⟩
  · intro j xs u hu
    obtain ⟨hempty, hnodup, hlt⟩ := hu
    have hj : j < nindirect := hlt j List.mem_cons_self
    have hrest : xs.Nodup ∧ ∀ j ∈ xs, j < nindirect :=
      ⟨(List.nodup_cons.mp hnodup).2, fun m hm => hlt m (List.mem_cons_of_mem j hm)⟩
    have hnext : ∀ p, (p ≠ ndirect ∧ ∀ k ∈ xs, p ≠ ndirect + 1 + k) ↔
        p = ndirect + 1 + j ∨ p ≠ ndirect ∧ ∀ k ∈ j :: xs, p ≠ ndirect + 1 + k := by
      intro p
      have hjx := (List.nodup_cons.mp hnodup).1
      rw [List.forall_mem_cons]
      constructor
      · intro hp
        by_cases hpj : p = ndirect + 1 + j
        · exact .inl hpj
        · exact .inr ⟨hp.1, hpj, hp.2⟩
      · rintro (rfl | ⟨hp, -, hpx⟩)
        · refine ⟨by omega, fun k hk heq => hjx ?_⟩
          rw [show j = k by omega]
          exact hk
        · exact ⟨hp, hpx⟩
    -- the indirect block is as it was
    have haddr : word (u.blk (s.addr i ndirect)) (4 * j) 4 = s.addr i (ndirect + 1 + j) := by
      have hdir : (s.node i).addrs ndirect = s.addr i ndirect := (Dinode.addr_direct (Nat.le_refl _)).symm
      have hword : (s.node i).addr s.blk (ndirect + 1 + j) = word (s.blk ((s.node i).addrs ndirect)) (4 * j) 4 :=
        Dinode.addr_indirect hj (by rw [hdir]; exact h0)
      rw [hdir] at hword
      rw [hempty.blk _ (.inr (hs.range i _ hi h0).1)]
      exact hword.symm
    rw [wp_bind, wp_get]
    dsimp only
    rw [wp_ite, haddr]
    refine ⟨fun hne => ?_, fun hne => ?_⟩
    · have hnot : ¬(ndirect + 1 + j ≠ ndirect ∧ ∀ k ∈ j :: xs, ndirect + 1 + j ≠ ndirect + 1 + k) :=
        fun hp => hp.2 j List.mem_cons_self rfl
      apply wp_bfree (hempty.outstanding ▸ hout) (hempty.bit_place hs hi hnot hne)
      exact ⟨(hempty.release hs hi (by omega) hne).congr hv fun p _ => hnext p, hrest⟩
    · rw [wp_pure]
      refine ⟨hempty.congr hv fun p hp => (hnext p).trans ⟨fun hor => hor.resolve_left ?_, .inr⟩, hrest⟩
      rintro rfl
      exact hne hp
  · have hle := Fs.addr_le hp
    constructor
    · rintro ⟨hne, hall⟩
      by_contra hge
      exact hall (p - (ndirect + 1)) (List.mem_range.mpr (by omega)) (by omega)
    · exact fun hlt => ⟨by omega, fun j _ => by omega⟩

theorem wp_itrunc (hfit : (s.ip i).Fits) (hQ : ∀ t, s.Truncated I i t → Q () t) : wp (itrunc i) s Q E := by
  -- the last part, with every block given back
  have hlast : ∀ {u : Fs} {P : Nat → Prop}, s.Emptied i P u → (∀ p, P p) →
      wp (do setIp i fun d => { d with size := 0 }; iupdate i) u Q E := by
    intro u P hu hP
    unfold setIp
    rw [wp_bind, wp_modify]
    refine wp_iupdate (hu.outstanding ▸ hout) ?_
    exact hQ _ (hu.truncated hP hs hi hv hfit)
  unfold itrunc
  rw [wp_bind]
  apply wp_truncDirect hs hi hv hout
  intro u hu
  have haddr : (u.ip i).addrs ndirect = s.addr i ndirect :=
    (hu.kept ndirect (Nat.le_refl _) (Nat.lt_irrefl _)).trans (Fs.addr_valid hv (Nat.le_refl _)).symm
  rw [wp_bind, wp_get]
  dsimp only
  rw [haddr, wp_ite]
  refine ⟨fun h0 => ?_, fun h0 => ?_⟩
  · rw [wp_bind]
    apply wp_truncIndirect hs hi hv hout hu h0
    intro t ht
    have ht0 : (t.ip i).addrs ndirect = s.addr i ndirect :=
      (ht.kept ndirect (Nat.le_refl _) fun hne => hne rfl).trans (Fs.addr_valid hv (Nat.le_refl _)).symm
    have hdrop := wp_drop (Q := fun _ v => wp (do setIp i fun d => { d with size := 0 }; iupdate i) v Q E) (E := E)
      hs hi hv hout ht (Nat.le_refl ndirect) (fun hne => hne rfl) (ht0 ▸ h0)
      fun v hdropped => hlast hdropped fun p => em (p = ndirect)
    rw [ht0, wp_bind] at hdrop
    rw [wp_bind]
    exact wp_mono hdrop (fun _ v h => (wp_bind ..).mpr h) fun _ _ he => he
  · refine hlast (P := fun _ => True) (hu.congr hv fun p hp => ?_) fun _ => trivial
    refine iff_of_true trivial ?_
    by_contra hge
    exact hp (Fs.addr_none (not_not.mp h0) (Nat.le_of_not_lt hge))

end Spec

end Xv6.Disk
