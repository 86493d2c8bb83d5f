import AdvancedXv6.Icache.State

/-! What an inode is when it comes back from the disk: all its fields, if the link count has at most 13 bits. -/

namespace Xv6.Icache
open Function Bytes

variable {c c' : Copy} {b x y : Block} {o n m i j dev inum : Nat} {k t u : Kernel} {e : Event} {es : List Event}

/-! ### One inode in a block -/

theorem word_putNlink : word (putNlink b o n) o 2 = word b o 2 / 8192 * 8192 + n % 8192 := by
  have hlt : word b o 2 < 256 ^ 2 := word_lt
  exact word_put_digits (by omega)

theorem word_putPerm : word (putPerm b o n) o 2 = word b o 2 % 8192 + n % 8 * 8192 :=
  word_put_digits (by omega)

theorem word_addrBytes (j : Fin (ndirect + 1)) : word c.addrBytes (4 * j) 4 = (c.addrs j).toNat := by
  have hj : (j : Nat) < ndirect + 1 := j.isLt
  have hwindow : word (digits (c.addrs j).toNat) 0 4 = word c.addrBytes (4 * j) 4 := by
    refine word_window fun k hk => ?_
    have hdiv : (4 * j + k) / 4 = (j : Nat) := by omega
    unfold Copy.addrBytes
    rw [dif_pos (by omega), show (4 * (j : Nat) + k) % 4 = k by omega]
    simp only [hdiv]
  rw [← hwindow, word_digits, pow_zero, Nat.div_one]
  exact Nat.mod_eq_of_lt (c.addrs j).isLt

/-- Reading back what has been stored: the link count is cut to 13 bits, and the permissions to 3. -/
theorem load_store (c : Copy) (b : Block) (o : Nat) : Copy.load (c.store b o) o =
    { c with nlink := BitVec.ofNat 16 (c.nlink.toNat % 8192), perm := BitVec.ofNat 32 (c.perm.toNat % 8) } := by
  have htype : word (c.store b o) o 2 = c.type.toNat := by
    unfold Copy.store putPerm putNlink
    rw [word_put_out (by omega), word_put_out (by omega), word_put_out (by omega), word_put_out (by omega),
      word_put_out (by omega), word_put_out (by omega), word_put_digits c.type.isLt]
  have hmajor : word (c.store b o) (o + 2) 2 = c.major.toNat := by
    unfold Copy.store putPerm putNlink
    rw [word_put_out (by omega), word_put_out (by omega), word_put_out (by omega), word_put_out (by omega),
      word_put_out (by omega), word_put_digits c.major.isLt]
  have hminor : word (c.store b o) (o + 4) 2 = c.minor.toNat := by
    unfold Copy.store putPerm putNlink
    rw [word_put_out (by omega), word_put_out (by omega), word_put_out (by omega), word_put_out (by omega),
      word_put_digits c.minor.isLt]
  have hshort : word (c.store b o) (o + 6) 2 = c.nlink.toNat % 8192 + c.perm.toNat % 8 * 8192 := by
    unfold Copy.store
    dsimp only
    rw [word_put_out (by omega), word_putPerm, word_put_out (by omega), word_putNlink]
    omega
  have hsize : word (c.store b o) (o + 8) 4 = c.size.toNat := by
    unfold Copy.store
    dsimp only
    rw [word_put_out (by omega)]
    unfold putPerm
    rw [word_put_out (by omega), word_put_digits c.size.isLt]
  have haddrs (j : Fin (ndirect + 1)) : word (c.store b o) (o + 12 + 4 * j) 4 = (c.addrs j).toNat := by
    have hj : (j : Nat) < 13 := j.isLt
    unfold Copy.store
    dsimp only
    rw [word_put (by omega) (by omega), Nat.add_sub_cancel_left, word_addrBytes]
  have hnlink : (c.nlink.toNat % 8192 + c.perm.toNat % 8 * 8192) % 8192 = c.nlink.toNat % 8192 := by omega
  have hperm : (c.nlink.toNat % 8192 + c.perm.toNat % 8 * 8192) / 8192 = c.perm.toNat % 8 := by omega
  unfold Copy.load
  rw [htype, hmajor, hminor, hshort, hsize, hnlink, hperm]
  simp only [haddrs, BitVec.ofNat_toNat, BitVec.setWidth_eq]

/-- The law of the round trip. -/
theorem load_store_iff (c : Copy) (b : Block) (o : Nat) :
    Copy.load (c.store b o) o = c ↔ c.nlink.toNat < 8192 ∧ c.perm.toNat < 8 := by
  rw [load_store]
  constructor
  · intro h
    have hn := congrArg (fun c => c.nlink.toNat) h
    have hp := congrArg (fun c => c.perm.toNat) h
    simp only [BitVec.toNat_ofNat] at hn hp
    omega
  · rintro ⟨hn, hp⟩
    rw [Nat.mod_eq_of_lt hn, Nat.mod_eq_of_lt hp, BitVec.ofNat_toNat, BitVec.ofNat_toNat, BitVec.setWidth_eq, BitVec.setWidth_eq]

theorem load_congr (h : ∀ k, o ≤ k → k < o + dinodeSize → x k = y k) : Copy.load x o = Copy.load y o := by
  have hword {o' w : Nat} (ho : o ≤ o') (hw : o' + w ≤ o + 64) : word x o' w = word y o' w :=
    word_congr fun k hk hlt => h k (by omega) (Nat.lt_of_lt_of_le hlt hw)
  unfold Copy.load
  rw [hword (Nat.le_refl o) (by omega), hword (show o ≤ o + 2 by omega) (by omega), hword (show o ≤ o + 4 by omega) (by omega),
    hword (show o ≤ o + 6 by omega) (by omega), hword (show o ≤ o + 8 by omega) (by omega)]
  congr 1
  funext j
  have hj : (j : Nat) < 13 := j.isLt
  rw [hword (by omega) (by omega)]

/-- Storing an inode leaves the bytes outside of it. -/
theorem store_out (h : n < o ∨ o + dinodeSize ≤ n) : c.store b o n = b n := by
  change n < o ∨ o + 64 ≤ n at h
  unfold Copy.store putPerm putNlink
  rw [put_out (by omega), put_out (by omega), put_out (by omega), put_out (by omega), put_out (by omega), put_out (by omega),
    put_out (by omega)]

/-! ### The inodes of a device -/

namespace Kernel

/-- The state after an inode of the device has been stored. -/
def stored (k : Kernel) (dev inum : Nat) (c : Copy) : Kernel :=
  k.setBlock dev (k.iblock inum) (c.store (k.disk dev (k.iblock inum)) (ioff inum))

theorem stored_dinode : (k.stored dev inum c).dinode dev inum =
    { c with nlink := BitVec.ofNat 16 (c.nlink.toNat % 8192), perm := BitVec.ofNat 32 (c.perm.toNat % 8) } := by
  rw [← load_store c (k.disk dev (k.iblock inum)) (ioff inum), dinode, stored, setBlock]
  dsimp only [iblock]
  rw [update_self, update_self]

/-- The other inodes, in the same block and elsewhere, stay as they are. -/
theorem stored_dinode_of_ne {dev' inum' : Nat} (h : ¬(dev' = dev ∧ inum' = inum)) :
    (k.stored dev inum c).dinode dev' inum' = k.dinode dev' inum' := by
  rw [dinode, dinode, stored, setBlock]
  dsimp only [iblock]
  by_cases hd : dev' = dev
  · subst hd
    rw [update_self]
    by_cases hb : inum' / ipb + k.inodestart = inum / ipb + k.inodestart
    · rw [hb, update_self]
      refine load_congr fun n hn hlt => store_out ?_
      have hne : inum' ≠ inum := fun he => h ⟨rfl, he⟩
      change inum' / 8 + _ = inum / 8 + _ at hb
      change inum' % 8 * 64 ≤ n at hn
      change n < inum' % 8 * 64 + 64 at hlt
      change n < inum % 8 * 64 ∨ inum % 8 * 64 + 64 ≤ n
      omega
    · rw [update_of_ne hb]
  · rw [update_of_ne hd]

theorem iupdate_eq (k : Kernel) (i : Nat) : k.iupdate i = k.stored (k.inode i).dev (k.inode i).inum (k.inode i).copy := rfl

theorem iupdate_inode : (k.iupdate i).inode = k.inode := rfl

theorem setInode_dinode (f : Inode → Inode) : (k.setInode i f).dinode dev inum = k.dinode dev inum := rfl

theorem setInode_self (f : Inode → Inode) : (k.setInode i f).inode i = f (k.inode i) := update_self ..

theorem setInode_of_ne (hj : j ≠ i) (f : Inode → Inode) : (k.setInode i f).inode j = k.inode j := update_of_ne hj ..

/-- `iput` frees the inode. -/
def Frees (k : Kernel) (i : Nat) : Prop :=
  (k.inode i).valid ∧ (k.inode i).copy.nlink = 0 ∧ (k.inode i).ref = 1

instance (k : Kernel) (i : Nat) : Decidable (k.Frees i) := inferInstanceAs (Decidable (_ ∧ _))

/-- The step writes the inode `inum` of the device. -/
def Writes (k : Kernel) (dev inum : Nat) : Event → Prop
  | .ialloc d _ => d = dev ∧ (List.range' 1 (ninodes - 1)).find? (fun n => decide ((k.dinode d n).type = 0)) = some inum
  | .iupdate i => (k.inode i).dev = dev ∧ (k.inode i).inum = inum
  | .iput i => k.Frees i ∧ (k.inode i).dev = dev ∧ (k.inode i).inum = inum
  | _ => False

theorem iget_cases (h : k.iget dev inum = some (j, t)) :
    (j < ninode ∧ (0 < (k.inode j).ref ∧ (k.inode j).dev = dev ∧ (k.inode j).inum = inum) ∧
      t = k.setInode j fun ip => { ip with ref := ip.ref + 1 }) ∨
    ((∀ i, i < ninode → ¬(0 < (k.inode i).ref ∧ (k.inode i).dev = dev ∧ (k.inode i).inum = inum)) ∧
      t = k.setInode j fun ip => { ip with dev := dev, inum := inum, ref := 1, valid := false }) := by
  unfold iget at h
  split at h
  · rename_i i hfind
    cases h
    exact .inl ⟨List.mem_range.mp (List.mem_of_find?_eq_some hfind), by simpa using List.find?_some hfind, rfl⟩
  · rename_i hnone
    split at h
    · cases h
    · cases h
      refine .inr ⟨fun i hi hin => ?_, rfl⟩
      have hno := List.find?_eq_none.mp hnone i (List.mem_range.mpr hi)
      exact hno (decide_eq_true hin)

theorem iget_dinode (h : k.iget dev inum = some (j, t)) (d n : Nat) : t.dinode d n = k.dinode d n := by
  rcases iget_cases h with ⟨-, -, rfl⟩ | ⟨-, rfl⟩ <;> rfl

/-- `ilock` of an entry that has not been read. -/
def read (k : Kernel) (i : Nat) : Kernel :=
  k.setInode i fun ip => { ip with copy := k.dinode ip.dev ip.inum, valid := true }

theorem ilock_unread (href : 0 < (k.inode i).ref) (hv : (k.inode i).valid = false)
    (htype : (k.dinode (k.inode i).dev (k.inode i).inum).type ≠ 0) : k.ilock i = some (k.read i) := by
  unfold ilock
  rw [if_neg (Nat.not_lt.mpr href), hv, if_neg Bool.false_ne_true]
  dsimp only
  rw [setInode_self, if_neg htype, read]

theorem ilock_cases (h : k.ilock i = some t) : (k.inode i).valid = true ∧ t = k ∨
    (k.inode i).valid = false ∧ (k.dinode (k.inode i).dev (k.inode i).inum).type ≠ 0 ∧ t = k.read i := by
  unfold ilock at h
  split at h
  · cases h
  · split at h
    · rename_i hv
      exact .inl ⟨hv, (Option.some.inj h).symm⟩
    · rename_i hv
      dsimp only at h
      rw [setInode_self] at h
      split at h
      · cases h
      · rename_i htype
        exact .inr ⟨Bool.eq_false_iff.mpr hv, htype, (Option.some.inj h).symm⟩

theorem iupdate_dinode_of_ne (h : ¬(dev = (k.inode i).dev ∧ inum = (k.inode i).inum)) :
    (k.iupdate i).dinode dev inum = k.dinode dev inum := stored_dinode_of_ne h

/-- The inode `i` without blocks and without a type, on the device too. -/
def freed (k : Kernel) (i : Nat) : Kernel :=
  ((k.itrunc i).setInode i fun ip => { ip with copy := { ip.copy with type := 0 } }).iupdate i

theorem iput_freed (h : k.Frees i) : k.iput i = ((k.freed i).setInode i fun ip => { ip with valid := false }).setInode i
    fun ip => { ip with ref := ip.ref - 1 } := by
  unfold iput
  rw [if_pos (show (k.inode i).valid ∧ (k.inode i).copy.nlink = 0 ∧ (k.inode i).ref = 1 from h), freed]

theorem iput_kept (h : ¬k.Frees i) : k.iput i = k.setInode i fun ip => { ip with ref := ip.ref - 1 } := by
  unfold iput
  rw [if_neg (show ¬((k.inode i).valid ∧ (k.inode i).copy.nlink = 0 ∧ (k.inode i).ref = 1) from h)]

theorem freed_of_ne (hj : j ≠ i) : (k.freed i).inode j = k.inode j := by
  rw [freed, iupdate_inode, setInode_of_ne hj, itrunc, iupdate_inode, setInode_of_ne hj]

theorem freed_dinode_of_ne (h : ¬(dev = (k.inode i).dev ∧ inum = (k.inode i).inum)) :
    (k.freed i).dinode dev inum = k.dinode dev inum := by
  have htrunc : ((k.itrunc i).inode i).dev = (k.inode i).dev ∧ ((k.itrunc i).inode i).inum = (k.inode i).inum := by
    have hself : (k.itrunc i).inode i =
        { k.inode i with copy := { (k.inode i).copy with addrs := fun _ => 0, size := 0 } } := by
      rw [itrunc, iupdate_inode, setInode_self]
    rw [hself]
    exact ⟨rfl, rfl⟩
  calc (k.freed i).dinode dev inum
    _ = (k.itrunc i).dinode dev inum := by
        refine iupdate_dinode_of_ne ?_
        rw [setInode_self, htrunc.1, htrunc.2]
        exact h
    _ = k.dinode dev inum := by
        refine iupdate_dinode_of_ne ?_
        rw [setInode_self]
        exact h

theorem iput_dinode_of_ne (h : k.Frees i → ¬(dev = (k.inode i).dev ∧ inum = (k.inode i).inum)) :
    (k.iput i).dinode dev inum = k.dinode dev inum := by
  by_cases hf : k.Frees i
  · rw [iput_freed hf]
    exact freed_dinode_of_ne (h hf)
  · rw [iput_kept hf]
    rfl

/-- A step that does not write an inode leaves it as it is on the device. -/
theorem step_dinode (h : k.step e = some t) (hw : ¬k.Writes dev inum e) : t.dinode dev inum = k.dinode dev inum := by
  cases e with
  | ialloc d type =>
    obtain ⟨r, ht, rfl⟩ := Option.map_eq_some_iff.mp h
    unfold ialloc at ht
    split at ht
    · cases ht
    · rename_i n hfind
      rw [iget_dinode (j := r.1) ht]
      refine stored_dinode_of_ne fun hand => hw ⟨hand.1.symm, ?_⟩
      rw [hand.2]
      exact hfind
  | iget d n =>
    obtain ⟨r, ht, rfl⟩ := Option.map_eq_some_iff.mp h
    exact iget_dinode (j := r.1) ht dev inum
  | idup i =>
    obtain ⟨-, ht⟩ := Option.ite_none_right_eq_some.mp h
    cases ht
    rfl
  | ilock i =>
    obtain ⟨-, ht⟩ := Option.ite_none_right_eq_some.mp h
    rcases ilock_cases ht with ⟨-, rfl⟩ | ⟨-, -, rfl⟩ <;> rfl
  | change i c =>
    obtain ⟨-, ht⟩ := Option.ite_none_right_eq_some.mp h
    cases ht
    rfl
  | iupdate i =>
    obtain ⟨-, ht⟩ := Option.ite_none_right_eq_some.mp h
    cases ht
    exact iupdate_dinode_of_ne fun hand => hw ⟨hand.1.symm, hand.2.symm⟩
  | iput i =>
    obtain ⟨-, ht⟩ := Option.ite_none_right_eq_some.mp h
    cases ht
    exact iput_dinode_of_ne fun hf hand => hw ⟨hf, hand.1.symm, hand.2.symm⟩

/-- What has been read has a type, and three bits of permissions. -/
def Sound (k : Kernel) : Prop :=
  ∀ i, (k.inode i).valid = true → (k.inode i).copy.type ≠ 0 ∧ (k.inode i).copy.perm.toNat < 8

theorem Sound.setInode {f : Inode → Inode} (h : k.Sound)
    (hf : (f (k.inode i)).valid = true → (f (k.inode i)).copy.type ≠ 0 ∧ (f (k.inode i)).copy.perm.toNat < 8) :
    (k.setInode i f).Sound := by
  intro j hj
  by_cases hji : j = i
  · subst hji
    rw [setInode_self] at hj ⊢
    exact hf hj
  · rw [setInode_of_ne hji] at hj ⊢
    exact h j hj

theorem Sound.iget (h : k.Sound) (hk : k.iget dev inum = some (j, t)) : t.Sound := by
  rcases iget_cases hk with ⟨-, -, rfl⟩ | ⟨-, rfl⟩
  · exact h.setInode fun hv => h j hv
  · exact h.setInode fun hv => absurd hv Bool.false_ne_true

theorem load_perm (b : Block) (o : Nat) : (Copy.load b o).perm.toNat < 8 := by
  have hlt : word b (o + 6) 2 < 256 ^ 2 := word_lt
  show (BitVec.ofNat 32 (word b (o + 6) 2 / 8192)).toNat < 8
  rw [BitVec.toNat_ofNat]
  omega

theorem Sound.ilock (h : k.Sound) (hk : k.ilock i = some t) : t.Sound := by
  rcases ilock_cases hk with ⟨-, rfl⟩ | ⟨-, htype, rfl⟩
  · exact h
  · exact h.setInode fun _ => ⟨htype, load_perm _ _⟩

/-- An inode that is being freed stops being valid. -/
theorem Sound.iput (h : k.Sound) : (k.iput i).Sound := by
  by_cases hf : k.Frees i
  · intro j hj
    by_cases hji : j = i
    · subst hji
      rw [iput_freed hf, setInode_self, setInode_self] at hj
      exact absurd hj Bool.false_ne_true
    · rw [iput_freed hf, setInode_of_ne hji, setInode_of_ne hji, freed_of_ne hji] at hj ⊢
      exact h j hj
  · rw [iput_kept hf]
    exact h.setInode fun hv => h i hv

theorem apply_sound (c : Copy) (a : Change) (h : c.type ≠ 0 ∧ c.perm.toNat < 8) :
    (a.apply c).type ≠ 0 ∧ (a.apply c).perm.toNat < 8 := by
  cases a with
  | chmod mode =>
    refine ⟨h.1, ?_⟩
    show ((mode ^^^ 7) &&& 7 : Uint).toNat < 8
    rw [BitVec.toNat_and]
    exact Nat.lt_of_le_of_lt Nat.and_le_right (by decide)
  | _ => exact h

theorem Sound.step (h : k.Sound) (ht : k.step e = some t) : t.Sound := by
  cases e with
  | ialloc d type =>
    obtain ⟨r, hr, rfl⟩ := Option.map_eq_some_iff.mp ht
    unfold Kernel.ialloc at hr
    split at hr
    · cases hr
    · rename_i n _
      have hs : (k.setBlock d (k.iblock n) ((fresh type).store (k.disk d (k.iblock n)) (ioff n))).Sound := h
      exact Sound.iget (j := r.1) hs hr
  | iget d n =>
    obtain ⟨r, hr, rfl⟩ := Option.map_eq_some_iff.mp ht
    exact h.iget (j := r.1) hr
  | idup i =>
    obtain ⟨-, ht⟩ := Option.ite_none_right_eq_some.mp ht
    cases ht
    exact h.setInode fun hv => h i hv
  | ilock i =>
    obtain ⟨-, ht⟩ := Option.ite_none_right_eq_some.mp ht
    exact h.ilock ht
  | change i c =>
    obtain ⟨-, ht⟩ := Option.ite_none_right_eq_some.mp ht
    cases ht
    exact h.setInode fun hv => apply_sound _ c (h i hv)
  | iupdate i =>
    obtain ⟨-, ht⟩ := Option.ite_none_right_eq_some.mp ht
    cases ht
    exact h
  | iput i =>
    obtain ⟨-, ht⟩ := Option.ite_none_right_eq_some.mp ht
    cases ht
    exact h.iput

theorem sound_of_reaches {disk : Nat → Nat → Block} {start : Nat} (h : Run.Reaches step (mount disk start) k) :
    k.Sound :=
  h.invariant (fun _ _ _ h ht => h.step ht) fun _ hv => absurd hv Bool.false_ne_true

/-- No step of the run writes the inode. -/
def Quiet (k : Kernel) (dev inum : Nat) (es : List Event) : Prop :=
  Run.Always step (fun k e _ => ¬k.Writes dev inum e) k es

theorem Quiet.dinode (h : k.Quiet dev inum es) (ht : Run.exec step k es = some t) :
    t.dinode dev inum = k.dinode dev inum := by
  induction es generalizing k with
  | nil =>
    cases ht
    rfl
  | cons e es ih =>
    obtain ⟨s, hs, ht⟩ := Run.exec_cons_some.mp ht
    obtain ⟨hw, hq⟩ := h s hs
    rw [ih hq ht, step_dinode hs hw]

/-- No entry of the cache is the inode. -/
def Recycled (k : Kernel) (dev inum : Nat) : Prop :=
  ∀ i, i < ninode → ¬(0 < (k.inode i).ref ∧ (k.inode i).dev = dev ∧ (k.inode i).inum = inum)

instance (k : Kernel) (dev inum : Nat) : Decidable (k.Recycled dev inum) :=
  inferInstanceAs (Decidable (∀ i, i < ninode → _))

/-- An inode that is not in the cache is read from the device. -/
theorem ilock_recycled (h : k.Recycled dev inum) (ht : k.iget dev inum = some (j, t)) (htype : (k.dinode dev inum).type ≠ 0) :
    ∃ u, t.ilock j = some u ∧ (u.inode j).copy = k.dinode dev inum := by
  rcases iget_cases ht with ⟨hj, hin, -⟩ | ⟨-, rfl⟩
  · exact absurd hin (h j hj)
  · generalize hu : (k.setInode j fun ip => { ip with dev := dev, inum := inum, ref := 1, valid := false }) = u
    have hself : u.inode j = { k.inode j with dev := dev, inum := inum, ref := 1, valid := false } := by
      rw [← hu, setInode_self]
    have hdinode : u.dinode (u.inode j).dev (u.inode j).inum = k.dinode dev inum := by
      rw [hself, ← hu, setInode_dinode]
    refine ⟨u.read j, ilock_unread (by rw [hself]; exact Nat.one_pos) (by rw [hself]) (by rwa [hdinode]), ?_⟩
    rw [read, setInode_self, hdinode]

/-! ### The round trip -/

/-- An inode that is written back and later read again, no entry of the cache having kept it, is as it was if
and only if its link count is below 2^13; no other inode changes. -/
theorem write_back_iff {disk : Nat → Nat → Block} {start : Nat} (hr : Run.Reaches step (mount disk start) k)
    (hi : k.Loaded i) (hes : Run.exec step (k.iupdate i) es = some t)
    (hquiet : (k.iupdate i).Quiet (k.inode i).dev (k.inode i).inum es)
    (hout : t.Recycled (k.inode i).dev (k.inode i).inum)
    (hget : t.iget (k.inode i).dev (k.inode i).inum = some (j, u)) :
    (∃ w, u.ilock j = some w ∧ ((w.inode j).copy = (k.inode i).copy ↔ (k.inode i).copy.nlink.toNat < 8192)) ∧
      ∀ dev inum, ¬(dev = (k.inode i).dev ∧ inum = (k.inode i).inum) →
        (k.iupdate i).dinode dev inum = k.dinode dev inum := by
  refine ⟨?_, fun dev inum h => iupdate_dinode_of_ne h⟩
  obtain ⟨htype, hperm⟩ := sound_of_reaches hr i hi.2.2
  generalize hc : (k.inode i).copy = c at htype hperm ⊢
  have hloaded : t.dinode (k.inode i).dev (k.inode i).inum =
      { c with nlink := BitVec.ofNat 16 (c.nlink.toNat % 8192), perm := BitVec.ofNat 32 (c.perm.toNat % 8) } := by
    rw [hquiet.dinode hes, iupdate_eq, hc, stored_dinode]
  obtain ⟨w, hw, hcopy⟩ := ilock_recycled hout hget (by rwa [hloaded])
  refine ⟨w, hw, ?_⟩
  have hiff := load_store_iff c (fun _ => 0) 0
  rw [load_store] at hiff
  rw [hcopy, hloaded, hiff]
  exact and_iff_left hperm

/-- A new file with two links and a mode. -/
def linked : List Event :=
  [.ialloc 1 2, .ilock 0, .change 0 (.create 0 0), .iupdate 0, .change 0 .link, .iupdate 0, .change 0 (.chmod 5)]

theorem write_back_iff_linked : ∃ k t j u w, Run.exec step (mount (fun _ _ _ => 0) 2) linked = some k ∧
    Run.exec step (k.iupdate 0) [.iput 0] = some t ∧ t.iget 1 1 = some (j, u) ∧ u.ilock j = some w ∧
    (w.inode j).copy = (k.inode 0).copy := by
  obtain ⟨k, hk, hfacts⟩ : ∃ k, Run.exec step (mount (fun _ _ _ => 0) 2) linked = some k ∧
      decide (k.Loaded 0 ∧ (k.inode 0).dev = 1 ∧ (k.inode 0).inum = 1 ∧ (k.inode 0).copy.nlink = 2 ∧
        (Run.exec step (k.iupdate 0) [.iput 0]).any fun t => decide (t.Recycled 1 1) && (t.iget 1 1).isSome) = true :=
    (Option.any_eq_true _ _).mp (by decide)
  obtain ⟨hi, hdev, hinum, hnlink, hany⟩ := of_decide_eq_true hfacts
  obtain ⟨t, ht, hfacts⟩ := (Option.any_eq_true _ _).mp hany
  obtain ⟨hout, hsome⟩ := Bool.and_eq_true_iff.mp hfacts
  obtain ⟨r, hget⟩ := Option.isSome_iff_exists.mp hsome
  have hfrees : ¬(k.iupdate 0).Frees 0 := fun h => absurd h.2.1 (by rw [iupdate_inode, hnlink]; decide)
  obtain ⟨⟨w, hw, hiff⟩, -⟩ := write_back_iff (u := r.2) ⟨linked, hk⟩ hi ht
    (fun s _ => ⟨fun hw => hfrees hw.1, trivial⟩) (by rw [hdev, hinum]; exact of_decide_eq_true hout)
    (by rw [hdev, hinum]; exact hget)
  exact ⟨k, t, r.1, r.2, w, hk, ht, hget, hw, hiff.mpr (by rw [hnlink]; decide)⟩

/-- `n` calls of `sys_link`. -/
def links : Nat → List Event
  | 0 => []
  | n + 1 => .change 0 .link :: .iupdate 0 :: links n

theorem exec_links (h : k.Loaded 0) (n : Nat) : ∃ t, Run.exec step k (links n) = some t ∧
    t.inode = update k.inode 0 { k.inode 0 with copy :=
      { (k.inode 0).copy with nlink := (k.inode 0).copy.nlink + BitVec.ofNat 16 n } } := by
  induction n generalizing k with
  | zero => exact ⟨k, rfl, by rw [BitVec.add_zero, update_eq_self]⟩
  | succ n ih =>
    generalize hu : (k.setInode 0 fun ip => { ip with copy := Change.link.apply ip.copy }) = u
    have hself : u.inode 0 = { k.inode 0 with copy := Change.link.apply (k.inode 0).copy } := by
      rw [← hu, setInode_self]
    have hlink : k.step (.change 0 .link) = some u := by rw [← hu, step, if_pos h]
    have hu0 : u.Loaded 0 := by
      unfold Loaded
      rw [hself]
      exact h
    obtain ⟨t, ht, hinode⟩ := ih (k := u.iupdate 0) hu0
    refine ⟨t, ?_, ?_⟩
    · rw [links, Run.exec_cons hlink, Run.exec_cons (show u.step (.iupdate 0) = some (u.iupdate 0) from if_pos hu0), ht]
    · have hcount : (k.inode 0).copy.nlink + 1 + BitVec.ofNat 16 n = (k.inode 0).copy.nlink + BitVec.ofNat 16 (n + 1) := by
        rw [BitVec.add_assoc, Nat.add_comm n 1, BitVec.ofNat_add]
        rfl
      rw [hinode, iupdate_inode, hself, ← hu, setInode, update_idem, Change.apply, ← hcount]

theorem iget_empty (h : ∀ i, i < ninode → (k.inode i).ref = 0) : k.iget dev inum = some (0,
    k.setInode 0 fun ip => { ip with dev := dev, inum := inum, ref := 1, valid := false }) := by
  have hnone : (List.range ninode).find? (fun i => decide (0 < (k.inode i).ref ∧ (k.inode i).dev = dev ∧
      (k.inode i).inum = inum)) = none := by
    refine List.find?_eq_none.mpr fun i hi hin => ?_
    have href := h i (List.mem_range.mp hi)
    have hpos := (of_decide_eq_true hin).1
    omega
  have hfirst : (List.range ninode).find? (fun i => decide ((k.inode i).ref = 0)) = some 0 := by
    rw [show List.range ninode = 0 :: List.range' 1 49 by decide, List.find?_cons_of_pos]
    exact decide_eq_true (h 0 (by decide))
  rw [iget, hnone, hfirst]

/-- With 8192 links, the link count that comes back is 0. -/
theorem links_lost : ∃ k t u w, Run.Reaches step (mount (fun _ _ _ => 0) 2) k ∧ k.Loaded 0 ∧
    (k.iupdate 0).step (.iput 0) = some t ∧ t.Recycled (k.inode 0).dev (k.inode 0).inum ∧
    t.iget (k.inode 0).dev (k.inode 0).inum = some (0, u) ∧ u.ilock 0 = some w ∧
    (k.inode 0).copy.nlink = 8192 ∧ (w.inode 0).copy.nlink = 0 := by
  obtain ⟨s, hs, hfacts⟩ : ∃ s, Run.exec step (mount (fun _ _ _ => 0) 2)
      [.ialloc 1 2, .ilock 0, .change 0 (.create 0 0), .iupdate 0] = some s ∧
      decide (s.Loaded 0 ∧ (s.inode 0).ref = 1 ∧ (s.inode 0).copy.nlink = 1 ∧ (s.inode 0).copy.type = 2 ∧
        ∀ i, i < ninode → i = 0 ∨ (s.inode i).ref = 0) = true :=
    (Option.any_eq_true _ _).mp (by decide)
  obtain ⟨hi, href, hone, htype, hrest⟩ := of_decide_eq_true hfacts
  obtain ⟨k, hk, hinode⟩ := exec_links hi 8191
  have hself : k.inode 0 = { s.inode 0 with copy := { (s.inode 0).copy with nlink := 8192 } } := by
    rw [hinode, update_self, hone]
    rfl
  have hloaded : k.Loaded 0 := by
    unfold Loaded
    rw [hself]
    exact hi
  have hmany : (k.inode 0).copy.nlink = 8192 := by rw [hself]
  have hcut : BitVec.ofNat 16 ((8192 : Short).toNat % 8192) = 0 := by decide
  have hkept : ¬(k.iupdate 0).Frees 0 := by
    rintro ⟨-, hzero, -⟩
    rw [iupdate_inode, hmany] at hzero
    exact absurd hzero (by decide)
  generalize ht : (k.iupdate 0).iput 0 = t
  have hempty : ∀ i, i < ninode → (t.inode i).ref = 0 := by
    intro i hlt
    rw [← ht, iput_kept hkept]
    by_cases hi0 : i = 0
    · rw [hi0, setInode_self, iupdate_inode, hself]
      show (s.inode 0).ref - 1 = 0
      rw [href]
    · rw [setInode_of_ne hi0, iupdate_inode, hinode, update_of_ne hi0]
      exact (hrest i hlt).resolve_left hi0
  have hout : t.Recycled (k.inode 0).dev (k.inode 0).inum := fun i hlt hin => by
    have hzero := hempty i hlt
    omega
  have hdinode : t.dinode (k.inode 0).dev (k.inode 0).inum =
      { (k.inode 0).copy with nlink := 0, perm := BitVec.ofNat 32 ((k.inode 0).copy.perm.toNat % 8) } := by
    rw [← ht, iput_kept hkept, setInode_dinode, iupdate_eq, stored_dinode, hmany, hcut]
  obtain ⟨w, hw, hcopy⟩ := ilock_recycled hout (iget_empty hempty) (by rw [hdinode, hself]; simp [htype])
  refine ⟨k, t, _, w, (Run.Reaches.exec ⟨_, hs⟩ hk), hloaded, ?_, hout, iget_empty hempty, hw, hmany, ?_⟩
  · rw [← ht]
    exact if_pos ⟨hloaded.1, hloaded.2.1⟩
  · rw [hcopy, hdinode]

end Kernel

end Xv6.Icache
