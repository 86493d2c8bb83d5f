import AdvancedXv6.Disk.Place

/-! The allocation of blocks by `bmap`. -/

namespace Xv6.Disk
open Function Effect Bytes
variable {I : Nat → Prop} {s t u : Fs} {i j a b c n p q bn k : Nat} {x : Block}

theorem wp_logWrite {Q : Unit → Fs → Prop} {E : Panic → Fs → Prop} (hout : 1 ≤ s.outstanding)
    (hQ : Q () (s.setBlk n x)) : wp (logWrite n x) s Q E := by
  unfold logWrite
  rw [wp_bind, wp_get]
  dsimp only
  rw [wp_ite]
  refine ⟨fun h => absurd h (Nat.not_lt_of_le hout), fun _ => ?_⟩
  rw [wp_modify]
  exact hQ

namespace Fs

theorem setBlk_self (s : Fs) (n : Nat) (x : Block) : (s.setBlk n x).blk n = x := update_self ..

theorem setBlk_of_ne (h : a ≠ n) (s : Fs) (x : Block) : (s.setBlk n x).blk a = s.blk a := update_of_ne h ..

/-- No block is free. -/
def Full (s : Fs) : Prop := ∀ b, b < fsSize → s.bit b = true

/-- The state in which `balloc` has taken `b`. -/
def claim (s : Fs) (b : Nat) : Fs :=
  (s.setBlk (bblock b) (setBit (s.blk (bblock b)) (b % bpb))).setBlk b fun _ => 0

/-- Block `b` is taken: its bit is set and it is full of zeros. -/
structure Claims (b : Nat) (s t : Fs) : Prop where
  blk : ∀ a, a ≠ b → a < sb.bmapstart ∨ nmeta ≤ a → t.blk a = s.blk a
  zero : t.blk b = fun _ => 0
  bit : ∀ c, c < fsSize → t.bit c = if c = b then true else s.bit c
  ip : t.ip = s.ip
  valid : t.valid = s.valid
  ref : t.ref = s.ref
  outstanding : t.outstanding = s.outstanding

theorem claims_claim (hb : nmeta ≤ b) (hlt : b < fsSize) : Claims b s (s.claim b) := by
  refine ⟨fun a ha hmap => ?_, update_self .., fun c hc => ?_, rfl, rfl, rfl, rfl⟩
  · have hrange := bblock_range hlt
    unfold claim
    rw [setBlk_of_ne ha, setBlk_of_ne (by omega)]
  · have hrange := bblock_range hc
    have hne : bblock c ≠ b := by omega
    unfold claim Fs.bit
    rw [setBlk_of_ne hne]
    by_cases hmap : bblock c = bblock b
    · rw [hmap, setBlk_self, bit_setBit]
      refine if_congr ⟨fun hmod => ?_, fun heq => by rw [heq]⟩ rfl rfl
      change c / 4096 + 6458 = b / 4096 + 6458 at hmap
      change c % 4096 = b % 4096 at hmod
      omega
    · rw [setBlk_of_ne hmap, if_neg fun heq => hmap (by rw [heq])]

theorem Claims.dinode (h : Claims b s t) (hb : nmeta ≤ b) (hj : j < ninodes) : t.dinode j = s.dinode j := by
  have hrange := iblock_range hj
  have hle := bmapstart_le
  unfold Fs.dinode
  rw [h.blk _ (by omega) (.inl hrange.2)]

theorem Claims.node (h : Claims b s t) (hb : nmeta ≤ b) (hj : j < ninodes) : t.node j = s.node j := by
  unfold Fs.node
  rw [h.dinode hb hj, h.valid, h.ip]

/-- Nobody holds a block that is free in the map. -/
theorem Held.unheld (h : Held I s) (hb : s.bit b = false) (hj : I j) (h0 : b ≠ 0) : s.addr j q ≠ b := by
  intro heq
  have hset := h.set j q hj (heq ▸ h0)
  rw [heq, hb] at hset
  cases hset

theorem Held.claim_addr (h : Held I s) (hc : Claims b s t) (hbit : s.bit b = false) (hb : nmeta ≤ b) (hj : I j)
    (q : Nat) : t.addr j q = s.addr j q := by
  unfold addr
  rw [hc.node hb (h.number j hj)]
  refine Dinode.addr_congr rfl (fun hd => ?_) q
  have hind : s.addr j ndirect = (s.node j).addrs ndirect := Dinode.addr_direct (Nat.le_refl _)
  rw [← hind] at hd ⊢
  refine hc.blk _ (h.unheld hbit hj ?_) (.inr (h.range j _ hj hd).1)
  exact Nat.ne_of_gt (Nat.lt_of_lt_of_le (by decide) hb)

/-- Block `b` is put at the free place `p` of inode `i`. -/
structure Fills (I : Nat → Prop) (i p b : Nat) (s t : Fs) : Prop where
  self : t.addr i p = b
  others : ∀ j q, I j → ¬(j = i ∧ q = p) → t.addr j q = s.addr j q
  bit : ∀ c, c < fsSize → t.bit c = if c = b then true else s.bit c
  node : ∀ j, j < ninodes → j ≠ i → t.node j = s.node j
  fields : t.node i = { s.node i with addrs := (t.node i).addrs }
  data : ∀ j bn, I j → s.addr j (place bn) ≠ 0 → t.blk (s.addr j (place bn)) = s.blk (s.addr j (place bn))
  zero : p ≠ ndirect → t.blk b = fun _ => 0
  dinode : ∀ j, j < ninodes → t.dinode j = s.dinode j
  valid : t.valid = s.valid
  ref : t.ref = s.ref
  outstanding : t.outstanding = s.outstanding
  fits : ∀ j, (s.ip j).Fits → (t.ip j).Fits

/-- What `bmap` on inode `i` can do. -/
structure Grows (I : Nat → Prop) (i : Nat) (s t : Fs) : Prop where
  held : Held I t
  node : ∀ j, j < ninodes → j ≠ i → t.node j = s.node j
  fields : t.node i = { s.node i with addrs := (t.node i).addrs }
  kept : ∀ j p, I j → s.addr j p ≠ 0 → t.addr j p = s.addr j p
  others : ∀ j p, I j → j ≠ i → t.addr j p = s.addr j p
  tight : ∀ c, nmeta ≤ c → c < fsSize → t.bit c = true → s.bit c = true ∨ ∃ p, t.addr i p = c
  dinode : ∀ j, j < ninodes → t.dinode j = s.dinode j
  valid : t.valid = s.valid
  ref : t.ref = s.ref
  outstanding : t.outstanding = s.outstanding
  fits : ∀ j, (s.ip j).Fits → (t.ip j).Fits

/-- The content of the inodes is the same. -/
def Keeps (I : Nat → Prop) (s t : Fs) : Prop := ∀ j k, I j → t.byte j k = s.byte j k

theorem Keeps.refl (I : Nat → Prop) (s : Fs) : Keeps I s s := fun _ _ _ => rfl

theorem Keeps.trans (h : Keeps I s t) (h' : Keeps I t u) : Keeps I s u :=
  fun j k hj => (h' j k hj).trans (h j k hj)

theorem Grows.refl (h : Held I s) (i : Nat) : Grows I i s s :=
  ⟨h, fun _ _ _ => rfl, rfl, fun _ _ _ _ => rfl, fun _ _ _ _ => rfl, fun _ _ _ => .inl, fun _ _ => rfl, rfl, rfl, rfl, fun _ => id⟩

theorem Grows.trans (h : Grows I i s t) (h' : Grows I i t u) (hi : I i) : Grows I i s u where
  held := h'.held
  node j hj hne := (h'.node j hj hne).trans (h.node j hj hne)
  fields := by rw [h'.fields, h.fields]
  kept j p hj hp := by
    have hkept := h.kept j p hj hp
    rw [← hkept] at hp ⊢
    exact h'.kept j p hj hp
  others j p hj hne := (h'.others j p hj hne).trans (h.others j p hj hne)
  tight c hb hc hbit := by
    obtain hbit | hp := h'.tight c hb hc hbit
    · obtain hbit | ⟨p, hp⟩ := h.tight c hb hc hbit
      · exact .inl hbit
      · refine .inr ⟨p, (h'.kept i p hi ?_).trans hp⟩
        rw [hp]
        exact Nat.ne_of_gt (Nat.lt_of_lt_of_le (by decide) hb)
    · exact .inr hp
  dinode j hj := (h'.dinode j hj).trans (h.dinode j hj)
  valid := h'.valid.trans h.valid
  ref := h'.ref.trans h.ref
  outstanding := h'.outstanding.trans h.outstanding
  fits j hj := h'.fits j (h.fits j hj)

theorem Fills.grows (h : Fills I i p b s t) (hs : Held I s) (hp : s.addr i p = 0)
    (hbit : s.bit b = false) (hb : nmeta ≤ b) (hlt : b < fsSize) : Grows I i s t := by
  have hpos : b ≠ 0 := Nat.ne_of_gt (Nat.lt_of_lt_of_le (by decide) hb)
  have hfree : ∀ {j q}, I j → s.addr j q ≠ b := fun hj => hs.unheld hbit hj hpos
  have hcases : ∀ j q, I j → (j = i ∧ q = p) ∧ t.addr j q = b ∨ ¬(j = i ∧ q = p) ∧ t.addr j q = s.addr j q := by
    intro j q hj
    by_cases hjq : j = i ∧ q = p
    · exact .inl ⟨hjq, by rw [hjq.1, hjq.2, h.self]⟩
    · exact .inr ⟨hjq, h.others j q hj hjq⟩
  have hkept : ∀ j q, I j → s.addr j q ≠ 0 → t.addr j q = s.addr j q := by
    intro j q hj hq
    exact h.others j q hj fun heq => hq (by rw [heq.1, heq.2, hp])
  constructor
  · constructor
    · exact hs.number
    · intro j q hj hq
      obtain ⟨-, heq⟩ | ⟨-, heq⟩ := hcases j q hj
      · rw [heq]
        exact ⟨hb, hlt⟩
      · rw [heq] at hq ⊢
        exact hs.range j q hj hq
    · intro j q j' q' hj hj' hq heq
      obtain ⟨hjq, h₁⟩ | ⟨-, h₁⟩ := hcases j q hj
      · obtain ⟨hjq', -⟩ | ⟨-, h₂⟩ := hcases j' q' hj'
        · exact ⟨hjq.1.trans hjq'.1.symm, hjq.2.trans hjq'.2.symm⟩
        · rw [h₁, h₂] at heq
          exact absurd heq.symm (hfree hj')
      · rw [h₁] at hq heq
        obtain ⟨-, h₂⟩ | ⟨-, h₂⟩ := hcases j' q' hj'
        · rw [h₂] at heq
          exact absurd heq (hfree hj)
        · rw [h₂] at heq
          exact hs.unique j q j' q' hj hj' hq heq
    · intro j q hj hq
      obtain ⟨-, heq⟩ | ⟨-, heq⟩ := hcases j q hj
      · rw [heq, h.bit b hlt, if_pos rfl]
      · rw [heq] at hq ⊢
        rw [h.bit _ (hs.range j q hj hq).2, hs.set j q hj hq, ite_self]
    · intro c hc
      rw [h.bit c (Nat.lt_of_lt_of_le hc bmapstart_le.2.2), hs.reserved c hc, ite_self]
  · exact h.node
  · exact h.fields
  · exact hkept
  · exact fun j q hj hne => h.others j q hj fun heq => hne heq.1
  · intro c _ hc hcbit
    rw [h.bit c hc] at hcbit
    by_cases heq : c = b
    · exact .inr ⟨p, heq ▸ h.self⟩
    · rw [if_neg heq] at hcbit
      exact .inl hcbit
  · exact h.dinode
  · exact h.valid
  · exact h.ref
  · exact h.outstanding
  · exact h.fits

theorem Fills.keeps (h : Fills I i p b s t) (hp : s.addr i p = 0) (hb : nmeta ≤ b) : Keeps I s t := by
  intro j k hj
  have hpos : b ≠ 0 := Nat.ne_of_gt (Nat.lt_of_lt_of_le (by decide) hb)
  unfold byte
  by_cases hjq : j = i ∧ place (k / bsize) = p
  · obtain ⟨rfl, hq⟩ := hjq
    rw [hq, h.self, hp, if_neg hpos, if_pos rfl, h.zero (hq ▸ place_ne _)]
  · rw [h.others j _ hj hjq]
    by_cases h0 : s.addr j (place (k / bsize)) = 0
    · rw [if_pos h0, if_pos h0]
    · rw [if_neg h0, if_neg h0, h.data j _ hj h0]

theorem node_eq (hv : s.valid i = true) : s.node i = s.ip i := if_pos hv

theorem setIp_self (s : Fs) (i : Nat) (f : Dinode → Dinode) : (s.setIp i f).ip i = f (s.ip i) := update_self ..

theorem setIp_node (h : j ≠ i) (s : Fs) (f : Dinode → Dinode) : (s.setIp i f).node j = s.node j := by
  unfold node setIp
  dsimp only
  rw [update_of_ne h]
  rfl

/-- The data blocks of the inodes are not what an allocation changes. -/
theorem Held.claim_data (h : Held I s) (hc : Claims b s t) (hbit : s.bit b = false) (hb : nmeta ≤ b) (hj : I j)
    (hq : s.addr j q ≠ 0) : t.blk (s.addr j q) = s.blk (s.addr j q) :=
  hc.blk _ (h.unheld hbit hj (Nat.ne_of_gt (Nat.lt_of_lt_of_le (by decide) hb))) (.inr (h.range j q hj hq).1)

theorem Held.fills_direct (h : Held I s) (hv : s.valid i = true) (hk : k ≤ ndirect) (hz : (s.ip i).addrs k = 0)
    (hc : Claims b s u) (hbit : s.bit b = false) (hb : nmeta ≤ b) (hlt : b < fsSize) :
    Fills I i k b s (u.setIp i fun d => { d with addrs := update d.addrs k b }) := by
  have hpos : b ≠ 0 := Nat.ne_of_gt (Nat.lt_of_lt_of_le (by decide) hb)
  obtain ⟨t, ht⟩ : ∃ t, t = u.setIp i fun d => { d with addrs := update d.addrs k b } := ⟨_, rfl⟩
  have hblk : t.blk = u.blk := by rw [ht]; rfl
  have hvu : u.valid i = true := by rw [hc.valid]; exact hv
  have hnode : t.node i = { s.node i with addrs := update (s.node i).addrs k b } := by
    have hvt : t.valid i = true := by rw [ht]; exact hvu
    rw [node_eq hvt, node_eq hv, ht, setIp_self, hc.ip]
  have hothers : ∀ j, j < ninodes → j ≠ i → t.node j = s.node j := by
    intro j hj hne
    rw [ht, setIp_node hne, hc.node hb hj]
  rw [← ht]
  constructor
  · unfold addr
    rw [Dinode.addr_direct hk, hnode]
    exact update_self ..
  · intro j q hj hjq
    have hclaim := h.claim_addr hc hbit hb hj q
    by_cases hne : j = i
    · subst hne
      have hqk : q ≠ k := fun heq => hjq ⟨rfl, heq⟩
      rw [← hclaim]
      unfold addr
      rw [hnode, hblk, hc.node hb (h.number j hj)]
      unfold Dinode.addr
      dsimp only
      rw [update_of_ne hqk]
      by_cases hk12 : k = ndirect
      · have hind : (s.node j).addrs ndirect = 0 := by rw [node_eq hv, ← hk12, hz]
        subst hk12
        simp only [update_self, hind, hc.zero, word_zero, ite_self, ne_eq, not_true, and_false, if_false]
      · simp only [update_of_ne (Ne.symm hk12)]
    · rw [← hclaim]
      unfold addr
      rw [hothers j (h.number j hj) hne, hblk, hc.node hb (h.number j hj)]
  · intro c hlt
    rw [← hc.bit c hlt, ht]
    rfl
  · exact hothers
  · rw [hnode]
  · intro j bn hj hq
    rw [hblk]
    exact h.claim_data hc hbit hb hj hq
  · intro _
    rw [hblk]
    exact hc.zero
  · intro j hj
    refine Eq.trans ?_ (hc.dinode hb hj)
    rw [ht]
    rfl
  · rw [ht]
    exact hc.valid
  · rw [ht]
    exact hc.ref
  · rw [ht]
    exact hc.outstanding
  · intro j hj
    by_cases hne : j = i
    · subst hne
      have hip : t.ip j = { s.ip j with addrs := update (s.ip j).addrs k b } := by
        rw [ht, setIp_self, hc.ip]
      rw [hip]
      refine ⟨hj.type, hj.major, hj.minor, hj.nlink, hj.size, fun m => ?_, fun m hm => ?_⟩
      · by_cases hmk : m = k
        · subst hmk
          change update (s.ip j).addrs m b m < 2 ^ 32
          rw [update_self]
          exact Nat.lt_trans hlt (by decide)
        · change update (s.ip j).addrs k b m < 2 ^ 32
          rw [update_of_ne hmk]
          exact hj.addrs m
      · change update (s.ip j).addrs k b m = 0
        rw [update_of_ne (by omega)]
        exact hj.rest m hm
    · have hip : t.ip j = s.ip j := by
        rw [ht, ← hc.ip]
        exact update_of_ne hne ..
      rw [hip]
      exact hj

theorem Held.fills_indirect (h : Held I s) (hi : I i) (hj : k < nindirect) (hind : s.addr i ndirect ≠ 0)
    (hc : Claims b s u) (hbit : s.bit b = false) (hb : nmeta ≤ b) (hlt : b < fsSize) :
    Fills I i (ndirect + 1 + k) b s (u.setBlk (s.addr i ndirect)
      (put (u.blk (s.addr i ndirect)) (4 * k) (digits b) 4)) := by
  have hpos : b ≠ 0 := Nat.ne_of_gt (Nat.lt_of_lt_of_le (by decide) hb)
  obtain ⟨bp, hbp⟩ : ∃ bp, bp = s.addr i ndirect := ⟨_, rfl⟩
  have hrange := h.range i ndirect hi hind
  have hunheld := h.unheld (q := ndirect) hbit hi hpos
  rw [← hbp] at hind hrange hunheld ⊢
  obtain ⟨t, ht⟩ : ∃ t, t = u.setBlk bp (put (u.blk bp) (4 * k) (digits b) 4) := ⟨_, rfl⟩
  have hmeta : ∀ a, a ≠ bp → t.blk a = u.blk a := by
    intro a ha
    rw [ht, setBlk_of_ne ha]
  have hself : t.blk bp = put (u.blk bp) (4 * k) (digits b) 4 := by rw [ht, setBlk_self]
  have hdinode : ∀ j, j < ninodes → t.dinode j = s.dinode j := by
    intro j hj
    have hiblock := iblock_range hj
    have hle := bmapstart_le
    refine Eq.trans ?_ (hc.dinode hb hj)
    unfold dinode
    rw [hmeta _ (by omega)]
  have hnode : ∀ j, j < ninodes → t.node j = s.node j := by
    intro j hj
    rw [← hc.node hb hj]
    unfold node
    rw [hdinode j hj, hc.dinode hb hj, ht]
    rfl
  have hdir : (s.node i).addrs ndirect = bp := (Dinode.addr_direct (Nat.le_refl _)).symm.trans hbp.symm
  rw [← ht]
  constructor
  · unfold addr
    rw [hnode i (h.number i hi), Dinode.addr_indirect hj (by rw [hdir]; exact hind), hdir, hself]
    exact word_put_digits (Nat.lt_trans hlt (by decide))
  · intro j q hj' hjq
    rw [← h.claim_addr hc hbit hb hj' q]
    unfold addr
    rw [hnode j (h.number j hj'), hc.node hb (h.number j hj')]
    by_cases heq : (s.node j).addrs ndirect = bp
    · -- the same indirect block, another word of it
      have hij : j = i := by
        have hsame : s.addr i ndirect = s.addr j ndirect := by
          rw [← hbp, ← heq]
          exact (Dinode.addr_direct (Nat.le_refl _)).symm
        exact (h.unique i ndirect j ndirect hi hj' (hbp ▸ hind) hsame).1.symm
      unfold Dinode.addr
      rw [heq, hself]
      split
      · rfl
      · split
        · rename_i hq hq'
          have hne : q ≠ ndirect + 1 + k := fun hqk => hjq ⟨hij, hqk⟩
          exact word_put_out (by omega)
        · rfl
    · exact Dinode.addr_congr rfl (fun _ => hmeta _ heq) q
  · intro c hlt
    have hrange' := bblock_range hlt
    rw [← hc.bit c hlt]
    unfold bit
    rw [hmeta _ (by omega)]
  · exact fun j hj _ => hnode j hj
  · rw [hnode i (h.number i hi)]
  · intro j bn hj' hq
    have hne : s.addr j (place bn) ≠ bp := by
      intro heq
      exact place_ne bn (h.unique j _ i ndirect hj' hi hq (heq.trans hbp)).2
    rw [hmeta _ hne]
    exact h.claim_data hc hbit hb hj' hq
  · intro _
    rw [hmeta b hunheld.symm]
    exact hc.zero
  · exact hdinode
  · rw [ht]
    exact hc.valid
  · rw [ht]
    exact hc.ref
  · rw [ht]
    exact hc.outstanding
  · intro j hj'
    have hip : t.ip = s.ip := by
      rw [ht, ← hc.ip]
      rfl
    rw [hip]
    exact hj'

end Fs

theorem wp_balloc {Q : Nat → Fs → Prop} {E : Panic → Fs → Prop} (hs : s.Held I) (hout : 1 ≤ s.outstanding)
    (hE : s.Full → E .balloc s) (hQ : ∀ b, s.bit b = false → nmeta ≤ b → b < fsSize → Q b (s.claim b)) :
    wp balloc s Q E := by
  unfold balloc
  rw [wp_bind, wp_get]
  cases hfind : (List.range sb.size).find? fun b => !s.bit b with
  | none =>
    refine (wp_throw _).mpr (hE fun b hb => ?_)
    have hbit := List.find?_eq_none.mp hfind b (List.mem_range.mpr hb)
    rw [Bool.not_eq_true, Bool.not_eq_false'] at hbit
    exact hbit
  | some b =>
    have hlt : b < fsSize := List.mem_range.mp (List.mem_of_find?_eq_some hfind)
    have hfound := List.find?_some hfind
    have hbit : s.bit b = false := by simpa using hfound
    have hb : nmeta ≤ b := by
      by_contra hlow
      rw [hs.reserved b (Nat.lt_of_not_le hlow)] at hbit
      cases hbit
    dsimp only
    rw [wp_bind]
    apply wp_logWrite hout
    unfold bzero
    rw [wp_bind]
    refine wp_logWrite (s := s.setBlk (bblock b) _) hout ?_
    rw [wp_pure]
    exact hQ b hbit hb hlt

section Spec
variable {Q : Nat → Fs → Prop} {E : Panic → Fs → Prop} (hs : s.Held I) (hout : 1 ≤ s.outstanding)
  (hE : ∀ t, t.Full → E .balloc t)
include hs hout hE

theorem wp_direct (hv : s.valid i = true) (hk : k ≤ ndirect)
    (hQ : ∀ a t, s.Grows I i t → s.Keeps I t → t.addr i k = a → a ≠ 0 → Q a t) : wp (direct i k) s Q E := by
  have haddr : s.addr i k = (s.ip i).addrs k := by
    unfold Fs.addr
    rw [Dinode.addr_direct hk, Fs.node_eq hv]
  unfold direct
  rw [wp_bind, wp_get]
  dsimp only
  rw [wp_ite]
  refine ⟨fun hz => ?_, fun hz => ?_⟩
  · rw [wp_bind]
    apply wp_balloc hs hout (hE s)
    intro b hbit hb hlt
    unfold setIp
    rw [wp_bind, wp_modify, wp_pure]
    have hfills := hs.fills_direct hv hk hz (Fs.claims_claim hb hlt) hbit hb hlt
    refine hQ b _ (hfills.grows hs (haddr.trans hz) hbit hb hlt) (hfills.keeps (haddr.trans hz) hb) hfills.self ?_
    exact Nat.ne_of_gt (Nat.lt_of_lt_of_le (by decide) hb)
  · rw [wp_pure]
    exact hQ _ s (.refl hs i) (.refl I s) haddr hz

theorem wp_indirect (hi : I i) (hk : k < nindirect) (hind : s.addr i ndirect ≠ 0)
    (hQ : ∀ a t, s.Grows I i t → s.Keeps I t → t.addr i (ndirect + 1 + k) = a → a ≠ 0 → Q a t) :
    wp (indirect (s.addr i ndirect) k) s Q E := by
  have hdir : (s.node i).addrs ndirect = s.addr i ndirect := (Dinode.addr_direct (Nat.le_refl _)).symm
  have haddr : s.addr i (ndirect + 1 + k) = word (s.blk (s.addr i ndirect)) (4 * k) 4 := by
    have hword : (s.node i).addr s.blk (ndirect + 1 + k) = word (s.blk ((s.node i).addrs ndirect)) (4 * k) 4 :=
      Dinode.addr_indirect hk (by rw [hdir]; exact hind)
    rw [hdir] at hword
    exact hword
  unfold indirect
  rw [wp_bind, wp_get]
  dsimp only
  rw [wp_ite]
  refine ⟨fun hz => ?_, fun hz => ?_⟩
  · rw [wp_bind]
    apply wp_balloc hs hout (hE s)
    intro b hbit hb hlt
    rw [wp_bind, wp_get, wp_bind]
    refine wp_logWrite (s := s.claim b) hout ?_
    rw [wp_pure]
    have hfills := hs.fills_indirect hi hk hind (Fs.claims_claim hb hlt) hbit hb hlt
    refine hQ b _ (hfills.grows hs (haddr.trans hz) hbit hb hlt) (hfills.keeps (haddr.trans hz) hb) hfills.self ?_
    exact Nat.ne_of_gt (Nat.lt_of_lt_of_le (by decide) hb)
  · rw [wp_pure]
    exact hQ _ s (.refl hs i) (.refl I s) haddr hz

theorem wp_bmap (hi : I i) (hv : s.valid i = true) (hbn : bn < maxFile)
    (hQ : ∀ a t, s.Grows I i t → s.Keeps I t → t.addr i (place bn) = a → a ≠ 0 → Q a t) : wp (bmap i bn) s Q E := by
  unfold bmap
  rw [wp_ite]
  refine ⟨fun hdir => ?_, fun hdir => ?_⟩
  · apply wp_direct hs hout hE hv (Nat.le_of_lt hdir)
    intro a t hg hk ha h0
    refine hQ a t hg hk ?_ h0
    rw [place, if_pos hdir]
    exact ha
  · rw [wp_ite]
    have hbn' : bn - ndirect < nindirect := by
      change bn < ndirect + nindirect at hbn
      omega
    refine ⟨fun _ => ?_, fun hlarge => absurd hbn' hlarge⟩
    rw [wp_bind]
    apply wp_direct hs hout hE hv (Nat.le_refl _)
    rintro a t hg hk rfl h0
    apply wp_indirect hg.held (hg.outstanding ▸ hout) hE hi hbn' h0
    intro a u hg' hk' ha h0'
    refine hQ a u (hg.trans hg' hi) (hk.trans hk') ?_ h0'
    rw [place, if_neg hdir, show bn + 1 = ndirect + 1 + (bn - ndirect) by omega]
    exact ha

end Spec

end Xv6.Disk
