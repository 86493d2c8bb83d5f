import AdvancedXv6.Disk.CallSpec
import AdvancedXv6.Lib.Run

/-! Runs of system calls from an image: every call keeps the accounts of blocks. -/

namespace Xv6.Disk
open Function Effect Bytes Fs
variable {H : List Nat} {s t u : Fs} {i b p bn : Nat}

/-- System calls, each with the current directory or the open inode that it starts from. -/
inductive Op
  /-- `namei("/")` for the first process -/
  | userinit
  | open (cwd : Nat) (path : Name) (omode : Nat) (full : Bool)
  | mkdir (cwd : Nat) (path : Name)
  | mknod (cwd : Nat) (path : Name) (major minor : Nat)
  | link (cwd : Nat) (old new : Name)
  | unlink (cwd : Nat) (path : Name)
  | chdir (cwd : Nat) (path : Name)
  | exec (cwd : Nat) (path : Name) (reads : List (Nat × UInt32))
  | fork (cwd : Nat)
  /-- the last `close` of a file, and `exit` with its current directory -/
  | put (i : Nat)
  | fstat (i : Nat)
  | read (i : Nat) (off n : UInt32) (io : Option (List UInt8))
  | write (i : Nat) (src : Nat → UInt8) (off n : UInt32) (io : Bool)

namespace Op

/-- The inode that the process has a reference to. -/
def holds : Op → Option Nat
  | userinit => none
  | .open cwd .. | mkdir cwd .. | mknod cwd .. | link cwd .. | unlink cwd .. | chdir cwd .. | exec cwd .. | fork cwd => some cwd
  | put i | fstat i | read i .. | write i .. => some i

def run : Op → M Unit
  | userinit => iget rootIno
  | .open cwd path omode full => (fun _ => ()) <$> sysOpen cwd path omode full
  | mkdir cwd path => (fun _ => ()) <$> sysMkdir cwd path
  | mknod cwd path major minor => (fun _ => ()) <$> sysMknod cwd path major minor
  | link cwd old new => (fun _ => ()) <$> sysLink cwd old new
  | unlink cwd path => (fun _ => ()) <$> sysUnlink cwd path
  | chdir cwd path => (fun _ => ()) <$> sysChdir cwd path
  | exec cwd path reads => Disk.exec cwd path (reads.map fun r => (r.1, r.2.toNat))
  | fork cwd => idup cwd
  | put i => inOp (iput i)
  | fstat i => ilock i
  | read i off n io => (fun _ => ()) <$> fileread i off.toNat n.toNat io
  | write i src off n io => (fun _ => ()) <$> filewrite i src off.toNat n.toNat io

def enabled (op : Op) (s : Fs) : Prop := ∀ i ∈ op.holds, 1 ≤ s.ref i

instance (op : Op) (s : Fs) : Decidable (op.enabled s) := by
  unfold enabled
  infer_instance

end Op

def step (s : Fs) (op : Op) : Option Fs :=
  if op.enabled s then
    match op.run s with
    | .ok _ t => some t
    | .error _ _ => none
  else none

/-- Nothing is in the inode cache and no transaction is going on. -/
structure Fs.Cold (s : Fs) : Prop where
  valid : ∀ i, s.valid i = false
  ref : ∀ i, s.ref i = 0
  outstanding : s.outstanding = 0

theorem Fs.Cold.sound (h : s.Cold) (hexact : s.Exact) (hdense : s.Dense) (hnames : s.Names) : s.Sound where
  exact := hexact
  dense := hdense
  names := hnames
  synced i hv := absurd ((h.valid i).symm.trans hv) Bool.false_ne_true
  live i hv := absurd ((h.valid i).symm.trans hv) Bool.false_ne_true
  refs i hi := absurd hi (by rw [h.ref]; decide)

/-- A call keeps the invariant, and the panics that are left have nothing to do with blocks. -/
theorem op_sound (h : s.Sound) (op : Op) (hen : op.enabled s) :
    wp op.run s (fun _ t => t.Sound ∧ t.outstanding = s.outstanding) Harmless := by
  have hnone : s.Good [] := ⟨h, fun _ => Nat.zero_le _⟩
  have hone : ∀ {i}, 1 ≤ s.ref i → s.Good [i] := by
    intro i hi
    refine ⟨h, fun j => ?_⟩
    by_cases hji : j = i
    · rw [hji, List.count_singleton_self]
      exact hi
    · rw [List.count_singleton, if_neg (by simpa using Ne.symm hji)]
      exact Nat.zero_le _
  have hweak : ∀ {α : Type} {m : M α} {H : α → List Nat},
      wp m s (fun r t => t.Good (H r) ∧ t.outstanding = s.outstanding) Harmless →
      wp ((fun _ => ()) <$> m) s (fun _ t => t.Sound ∧ t.outstanding = s.outstanding) Harmless := by
    intro α m H hm
    rw [wp_map]
    exact wp_mono hm (fun r t ht => ⟨ht.1.toSound, ht.2⟩) fun _ _ he => he
  have hcwd : ∀ {i : Nat}, i ∈ [i] := List.mem_singleton_self _
  cases op with
  | userinit =>
    exact wp_mono (wp_iget hnone (by decide)) (fun _ t ht => ⟨ht.1.toSound, ht.2.outstanding⟩) fun _ _ he => he
  | «open» cwd path omode full => exact hweak (sysOpen_good (hone (hen cwd rfl)) hcwd path omode full)
  | mkdir cwd path =>
    exact hweak (H := fun _ => [cwd]) (sysMake_good (hone (hen cwd rfl)) hcwd path (by decide))
  | mknod cwd path major minor =>
    exact hweak (H := fun _ => [cwd]) (sysMake_good (hone (hen cwd rfl)) hcwd path (by decide))
  | link cwd old new => exact hweak (H := fun _ => [cwd]) (sysLink_good (hone (hen cwd rfl)) hcwd old new)
  | unlink cwd path => exact hweak (H := fun _ => [cwd]) (sysUnlink_good (hone (hen cwd rfl)) hcwd path)
  | chdir cwd path => exact hweak (sysChdir_good (hone (hen cwd rfl)) hcwd path)
  | exec cwd path reads =>
    refine wp_mono (exec_good (hone (hen cwd rfl)) hcwd path _ fun r hr => ?_) (fun _ t ht => ⟨ht.1.toSound, ht.2⟩)
      fun _ _ he => he
    obtain ⟨r', -, rfl⟩ := List.mem_map.mp hr
    exact r'.2.toNat_lt
  | fork cwd =>
    exact wp_mono (wp_idup hnone (hen cwd rfl)) (fun _ t ht => ⟨ht.1.toSound, ht.2.outstanding⟩) fun _ _ he => he
  | put i =>
    refine wp_mono (wp_inOp (K := fun _ => []) (hone (hen i rfl)) fun t ht => ?_) (fun _ t ht => ⟨ht.1.toSound, ht.2⟩)
      fun _ _ he => he
    exact busy_iput ht (List.Perm.refl _) (by simp)
  | fstat i =>
    have hgood := hone (hen i rfl)
    exact wp_mono (wp_ilock hgood (hgood.number hcwd)) (fun _ t ht => ⟨ht.1.toSound, ht.2.1.outstanding⟩)
      fun _ _ he => he
  | read i off n io => exact hweak (H := fun _ => [i]) (fileread_good (hone (hen i rfl)) hcwd n.toNat_lt)
  | write i src off n io =>
    exact hweak (H := fun _ => [i]) (filewrite_good (hone (hen i rfl)) hcwd off.toNat_lt n.toNat_lt)

theorem step_sound (h : s.Sound) {op : Op} (hstep : step s op = some t) : t.Sound ∧ t.outstanding = s.outstanding := by
  unfold step at hstep
  split at hstep
  · rename_i hen
    cases hrun : op.run s with
    | error e u =>
      rw [hrun] at hstep
      cases hstep
    | ok r u =>
      rw [hrun] at hstep
      obtain rfl := Option.some.inj hstep
      have hspec := op_sound h op hen
      exact wp_ok (a := ()) hspec hrun
  · cases hstep

theorem reaches_sound (h : s.Sound) (hr : Run.Reaches step s t) : t.Sound ∧ t.outstanding = s.outstanding :=
  hr.invariant (I := fun t => t.Sound ∧ t.outstanding = s.outstanding)
    (fun _ _ _ hI hstep => ⟨(step_sound hI.1 hstep).1, (step_sound hI.1 hstep).2.trans hI.2⟩) ⟨h, rfl⟩

/-! ### Block accounting -/

/-- A directory with an entry for the number `n` and a file. The content of the file looks like an inode, which the
kernel takes for number 300. -/
def entryTo (n : Nat) : Fs where
  blk m :=
    if m = 6461 then dirent n [97]
    else if m = 6469 then Dinode.store ⟨tFile, 0, 0, 1, 0, fun k => if k = 0 then 7000 else 0⟩ (fun _ => 0) 256
    else if m = 6432 then
      Dinode.store ⟨tFile, 0, 0, 1, 512, fun k => if k = 0 then 6469 else 0⟩
        (Dinode.store ⟨tDir, 0, 0, 1, 16, fun k => if k = 0 then 6461 else 0⟩ (fun _ => 0) 64) 128
    else if 6458 ≤ m ∧ m < 6461 then ofBits fun k =>
      let b := bpb * (m - 6458) + k
      decide (b < 6461 ∨ b = 6461 ∨ b = 6469)
    else fun _ => 0
  ip _ := ⟨0, 0, 0, 0, 0, fun _ => 0⟩
  valid _ := false
  ref _ := 0
  outstanding := 0
  logged := []

theorem entryTo_cold (n : Nat) : (entryTo n).Cold := ⟨fun _ => rfl, fun _ => rfl, rfl⟩

theorem entryTo_bit (n : Nat) (hb : b < fsSize) :
    (entryTo n).bit b = decide (b < 6461 ∨ b = 6461 ∨ b = 6469) := by
  change b < 10000 at hb
  have hmap : bblock b = b / 4096 + 6458 := rfl
  have hblk : (entryTo n).blk (bblock b) = ofBits fun k =>
      decide (bpb * (bblock b - 6458) + k < 6461 ∨ bpb * (bblock b - 6458) + k = 6461 ∨ bpb * (bblock b - 6458) + k = 6469) := by
    unfold entryTo
    dsimp only
    rw [if_neg (by omega), if_neg (by omega), if_neg (by omega), if_pos (by omega)]
  have hsum : bpb * (bblock b - 6458) + b % bpb = b := by
    rw [hmap]
    change 4096 * (b / 4096 + 6458 - 6458) + b % 4096 = b
    omega
  unfold Fs.bit
  rw [hblk, bit_ofBits, hsum]

/-- An inode with one block. -/
theorem fits_single {type size a : Nat} (ht : type < 2 ^ 16) (hs : size < 2 ^ 32) (ha : a < 2 ^ 32) :
    (⟨type, 0, 0, 1, size, fun k => if k = 0 then a else 0⟩ : Dinode).Fits where
  type := ht
  major := Nat.two_pow_pos 16
  minor := Nat.two_pow_pos 16
  nlink := Nat.one_lt_two_pow (by decide)
  size := hs
  addrs k := by
    dsimp only
    split
    · exact ha
    · exact Nat.two_pow_pos 32
  rest k hk := if_neg (Nat.ne_of_gt (Nat.zero_lt_of_lt hk))

/-- Two inodes are in use, whatever the entry is. -/
theorem entryTo_node (n : Nat) (hi : i < ninodes) : (entryTo n).node i =
    if i = 1 then ⟨tDir, 0, 0, 1, 16, fun k => if k = 0 then 6461 else 0⟩
    else if i = 2 then ⟨tFile, 0, 0, 1, 512, fun k => if k = 0 then 6469 else 0⟩
    else ⟨0, 0, 0, 0, 0, fun _ => 0⟩ := by
  have hrange := (iblock_range hi).2
  have hplace : iblock i = i / 8 + 6432 ∧ ioff i = i % 8 * 64 ∧ dinodeSize = 64 := ⟨rfl, rfl, rfl⟩
  change iblock i < 6458 at hrange
  change Dinode.load ((entryTo n).blk (iblock i)) (ioff i) = _
  unfold entryTo
  dsimp only
  rw [if_neg (by omega), if_neg (by omega)]
  by_cases h8 : i < 8
  · rw [if_pos (by omega)]
    by_cases h2 : i = 2
    · subst h2
      exact Dinode.load_store (fits_single (by decide) (by decide) (by decide)) ..
    · rw [Dinode.load_store_ne (by omega)]
      by_cases h1 : i = 1
      · subst h1
        exact Dinode.load_store (fits_single (by decide) (by decide) (by decide)) ..
      · rw [Dinode.load_store_ne (by omega), Dinode.load_zero, if_neg h1, if_neg h2]
  · rw [if_neg (by omega), if_neg (by omega), Dinode.load_zero, if_neg (by omega), if_neg (by omega)]

theorem entryTo_addr (n : Nat) (hi : i < ninodes) (hp : p ≤ ndirect) :
    (entryTo n).addr i p = if i = 1 ∧ p = 0 then 6461 else if i = 2 ∧ p = 0 then 6469 else 0 := by
  unfold Fs.addr
  rw [Dinode.addr_direct hp, entryTo_node n hi]
  by_cases h1 : i = 1
  · simp [h1]
  · by_cases h2 : i = 2
    · simp [h2]
    · simp [h1, h2]

theorem entryTo_fields (n : Nat) (hi : i < ninodes) : (((entryTo n).node i).type ≠ 0 ↔ i = 1 ∨ i = 2) ∧
    (((entryTo n).node i).type = tDir → i = 1 ∧ ((entryTo n).node i).size = 16) ∧ ((entryTo n).node i).size ≤ bsize := by
  rw [entryTo_node n hi]
  by_cases h1 : i = 1
  · simp [h1, tDir, bsize]
  · by_cases h2 : i = 2
    · simp [h2, tFile, tDir, bsize]
    · simp [h1, h2, tDir]

/-- The blocks of the two inodes. -/
theorem entryTo_held {n : Nat} (hi : (entryTo n).Alloc i) (h0 : (entryTo n).addr i p ≠ 0) :
    p = 0 ∧ (i = 1 ∧ (entryTo n).addr i p = 6461 ∨ i = 2 ∧ (entryTo n).addr i p = 6469) := by
  have hp : p ≤ ndirect := by
    by_contra hlt
    have hpos : ndirect ≠ 0 := by decide
    refine h0 (addr_none ?_ (Nat.le_of_not_le hlt))
    rw [entryTo_addr n hi.1 (Nat.le_refl _), if_neg fun hand => hpos hand.2, if_neg fun hand => hpos hand.2]
  have haddr := entryTo_addr n hi.1 hp
  have hz : p = 0 := by
    by_contra hz
    rw [if_neg fun hand => hz hand.2, if_neg fun hand => hz hand.2] at haddr
    exact h0 haddr
  obtain rfl | rfl := (entryTo_fields n hi.1).1.mp hi.2
  · rw [if_pos ⟨rfl, hz⟩] at haddr
    exact ⟨hz, .inl ⟨rfl, haddr⟩⟩
  · rw [if_neg (by omega), if_pos ⟨rfl, hz⟩] at haddr
    exact ⟨hz, .inr ⟨rfl, haddr⟩⟩

theorem entryTo_exact (n : Nat) : (entryTo n).Exact := by
  have hnum : nmeta = 6461 := rfl
  have hone : (entryTo n).Alloc 1 := ⟨by decide, (entryTo_fields n (by decide)).1.mpr (.inl rfl)⟩
  have htwo : (entryTo n).Alloc 2 := ⟨by decide, (entryTo_fields n (by decide)).1.mpr (.inr rfl)⟩
  constructor
  · constructor
    · exact fun i hi => hi.1
    · intro i p hi h0
      obtain ⟨-, ⟨-, heq⟩ | ⟨-, heq⟩⟩ := entryTo_held hi h0
      · rw [heq]
        decide
      · rw [heq]
        decide
    · intro i p j q hi hj h0 heq
      obtain ⟨hp, hi'⟩ := entryTo_held hi h0
      obtain ⟨hq, hj'⟩ := entryTo_held hj (heq ▸ h0)
      omega
    · intro i p hi h0
      obtain ⟨-, ⟨-, heq⟩ | ⟨-, heq⟩⟩ := entryTo_held hi h0
      · rw [heq, entryTo_bit n (by decide)]
        decide
      · rw [heq, entryTo_bit n (by decide)]
        decide
    · intro b hb
      rw [hnum] at hb
      rw [entryTo_bit n (Nat.lt_trans hb (by decide)), decide_eq_true_eq]
      exact .inl hb
  · intro b hb hlt hset
    rw [hnum] at hb
    rw [entryTo_bit n hlt, decide_eq_true_eq] at hset
    obtain hlow | rfl | rfl := hset
    · omega
    · exact ⟨1, 0, hone, entryTo_addr n (by decide) (by decide)⟩
    · exact ⟨2, 0, htwo, entryTo_addr n (by decide) (by decide)⟩

theorem entryTo_dense (n : Nat) : (entryTo n).Dense := by
  intro i bn hi hbn
  have hle := (entryTo_fields n hi.1).2.2
  have hzero : bn = 0 := by
    by_contra hpos
    have hmul : 1 * bsize ≤ bn * bsize := Nat.mul_le_mul_right bsize (Nat.pos_of_ne_zero hpos)
    omega
  subst hzero
  rw [entryTo_addr n hi.1 (by decide)]
  obtain rfl | rfl := (entryTo_fields n hi.1).1.mp hi.2
  · decide
  · decide

theorem entryTo_names : (entryTo 2).Names := by
  intro i k hi hdir hk
  obtain ⟨rfl, hsize⟩ := (entryTo_fields 2 hi.1).2.1 hdir
  have hzero : k = 0 := by
    rw [hsize] at hk
    change 16 * k + 16 ≤ 16 at hk
    omega
  subst hzero
  decide

end Xv6.Disk
