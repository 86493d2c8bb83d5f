import AdvancedXv6.Disk.State

/-! The places that hold blocks: the direct addresses of an inode, its indirect address and the words
of its indirect block. -/

namespace Xv6.Disk
open Function Effect Bytes
variable {I : Nat → Prop} {i j a b c n p q bn k : Nat} {d d' : Dinode} {blk : Nat → Block} {x : Block}

/-! ### Regions -/

theorem iblock_range (hi : i < ninodes) : sb.inodestart ≤ iblock i ∧ iblock i < sb.bmapstart := by
  change i < 200 at hi
  change 6432 ≤ i / 8 + 6432 ∧ i / 8 + 6432 < 6458
  omega

theorem bblock_range (hb : b < fsSize) : sb.bmapstart ≤ bblock b ∧ bblock b < nmeta := by
  change b < 10000 at hb
  change 6458 ≤ b / 4096 + 6458 ∧ b / 4096 + 6458 < 6461
  omega

theorem bmapstart_le : sb.inodestart ≤ sb.bmapstart ∧ sb.bmapstart ≤ nmeta ∧ nmeta ≤ fsSize := by decide

/-- Two inodes are in different blocks or at different places of one. -/
theorem ioff_disjoint (hij : i ≠ j) (h : iblock i = iblock j) :
    ioff i + dinodeSize ≤ ioff j ∨ ioff j + dinodeSize ≤ ioff i := by
  change i / 8 + 6432 = j / 8 + 6432 at h
  change i % 8 * 64 + 64 ≤ j % 8 * 64 ∨ j % 8 * 64 + 64 ≤ i % 8 * 64
  omega

/-! ### Inodes on the disk -/

/-- The fields are within their types. -/
structure Dinode.Fits (d : Dinode) : Prop where
  type : d.type < 2 ^ 16
  major : d.major < 2 ^ 16
  minor : d.minor < 2 ^ 16
  nlink : d.nlink < 2 ^ 16
  size : d.size < 2 ^ 32
  addrs : ∀ k, d.addrs k < 2 ^ 32
  rest : ∀ k, ndirect < k → d.addrs k = 0

theorem Dinode.load_fits (x : Block) (o : Nat) : (Dinode.load x o).Fits where
  type := word_lt
  major := word_lt
  minor := word_lt
  nlink := word_lt
  size := word_lt
  addrs k := by
    unfold Dinode.load
    dsimp only
    split
    · exact word_lt
    · decide
  rest k hk := if_neg (Nat.not_le_of_lt hk)

/-- A field of the structure, `w` bytes from `o` on. -/
theorem Dinode.word_bytes {o w y : Nat} (h : ∀ k, o ≤ k → k < o + w → d.bytes k = digits y (k - o)) (hy : y < 256 ^ w) :
    word d.bytes o w = y := by
  have hwindow : word (digits y) 0 w = word d.bytes o w :=
    word_window fun k hk => ((h (o + k) (Nat.le_add_right ..) (Nat.add_lt_add_left hk o)).trans
      (congrArg _ (Nat.add_sub_cancel_left ..))).symm
  rw [← hwindow, word_digits, pow_zero, Nat.div_one, Nat.mod_eq_of_lt hy]

theorem Dinode.load_store (h : d.Fits) (x : Block) (o : Nat) : Dinode.load (d.store x o) o = d := by
  have hword : ∀ o' w, o' + w ≤ dinodeSize → word (d.store x o) (o + o') w = word d.bytes o' w := by
    intro o' w hw
    unfold Dinode.store
    rw [word_put (Nat.le_add_right ..) (by omega), Nat.add_sub_cancel_left]
  have htype : word d.bytes 0 2 = d.type :=
    word_bytes (fun k _ hk => if_pos (by omega)) h.type
  have hmajor : word d.bytes 2 2 = d.major := by
    refine word_bytes (fun k hk hlt => ?_) h.major
    unfold Dinode.bytes
    rw [if_neg (by omega), if_pos (by omega)]
  have hminor : word d.bytes 4 2 = d.minor := by
    refine word_bytes (fun k hk hlt => ?_) h.minor
    unfold Dinode.bytes
    rw [if_neg (by omega), if_neg (by omega), if_pos (by omega)]
  have hnlink : word d.bytes 6 2 = d.nlink := by
    refine word_bytes (fun k hk hlt => ?_) h.nlink
    unfold Dinode.bytes
    rw [if_neg (by omega), if_neg (by omega), if_neg (by omega), if_pos (by omega)]
  have hsize : word d.bytes 8 4 = d.size := by
    refine word_bytes (fun k hk hlt => ?_) h.size
    unfold Dinode.bytes
    rw [if_neg (by omega), if_neg (by omega), if_neg (by omega), if_neg (by omega), if_pos (by omega)]
  have haddrs : ∀ k, word d.bytes (12 + 4 * k) 4 = d.addrs k := by
    intro k
    refine word_bytes (fun j hj hlt => ?_) (h.addrs k)
    unfold Dinode.bytes
    rw [if_neg (by omega), if_neg (by omega), if_neg (by omega), if_neg (by omega), if_neg (by omega),
      show (j - 12) / 4 = k by omega, show (j - 12) % 4 = j - (12 + 4 * k) by omega]
  cases d with
  | mk type major minor nlink size addrs =>
    unfold Dinode.load
    rw [Dinode.mk.injEq]
    refine ⟨?_, ?_, ?_, ?_, ?_, funext fun k => ?_⟩
    · exact (hword 0 2 (by decide)).trans htype
    · exact (hword 2 2 (by decide)).trans hmajor
    · exact (hword 4 2 (by decide)).trans hminor
    · exact (hword 6 2 (by decide)).trans hnlink
    · exact (hword 8 4 (by decide)).trans hsize
    · split
      · rename_i hk
        change k ≤ 12 at hk
        rw [Nat.add_assoc, hword (12 + 4 * k) 4 (by change 12 + 4 * k + 4 ≤ 64; omega)]
        exact haddrs k
      · exact (h.rest k (Nat.lt_of_not_le ‹_›)).symm

theorem Dinode.load_congr {y : Block} {o : Nat} (h : ∀ k, o ≤ k → k < o + dinodeSize → x k = y k) :
    Dinode.load x o = Dinode.load y o := by
  have hword : ∀ o' w, o' + w ≤ dinodeSize → word x (o + o') w = word y (o + o') w :=
    fun o' w hw => word_congr fun k hk hlt => h k (by omega) (by omega)
  unfold Dinode.load
  rw [Dinode.mk.injEq]
  refine ⟨hword 0 2 (by decide), hword 2 2 (by decide), hword 4 2 (by decide), hword 6 2 (by decide),
    hword 8 4 (by decide), funext fun k => ?_⟩
  split
  · rename_i hk
    change k ≤ 12 at hk
    rw [Nat.add_assoc]
    exact hword (12 + 4 * k) 4 (by change 12 + 4 * k + 4 ≤ 64; omega)
  · rfl

theorem Dinode.load_store_ne {o : Nat} (ho : n + dinodeSize ≤ o ∨ o + dinodeSize ≤ n) :
    Dinode.load (d.store x o) n = Dinode.load x n :=
  load_congr fun k hk hlt => put_out (by omega)

theorem Dinode.load_zero {o : Nat} : Dinode.load (fun _ => 0) o = ⟨0, 0, 0, 0, 0, fun _ => 0⟩ := by
  unfold Dinode.load
  simp only [word_zero, ite_self]

/-! ### Places -/

/-- The block at a place of an inode: the direct addresses and the indirect one come first. -/
def Dinode.addr (d : Dinode) (blk : Nat → Block) (p : Nat) : Nat :=
  if p ≤ ndirect then d.addrs p
  else if p ≤ ndirect + nindirect ∧ d.addrs ndirect ≠ 0 then
    word (blk (d.addrs ndirect)) (4 * (p - (ndirect + 1))) 4
  else 0

/-- The place of the block number `bn` of a file. -/
def place (bn : Nat) : Nat := if bn < ndirect then bn else bn + 1

theorem place_ne (bn : Nat) : place bn ≠ ndirect := by
  unfold place
  split <;> omega

theorem place_inj (h : place i = place j) : i = j := by
  unfold place at h
  split at h <;> split at h <;> omega

theorem Dinode.addr_direct (hp : p ≤ ndirect) : d.addr blk p = d.addrs p := if_pos hp

theorem Dinode.addr_indirect (hj : j < nindirect) (hd : d.addrs ndirect ≠ 0) :
    d.addr blk (ndirect + 1 + j) = word (blk (d.addrs ndirect)) (4 * j) 4 := by
  unfold Dinode.addr
  rw [if_neg (by omega), if_pos ⟨by omega, hd⟩, Nat.add_sub_cancel_left]

theorem Dinode.addr_zero (h : ∀ k, k ≤ ndirect → d.addrs k = 0) : d.addr blk p = 0 := by
  unfold Dinode.addr
  split
  · exact h p ‹_›
  · rw [if_neg fun hand => hand.2 (h ndirect (Nat.le_refl _))]

theorem Dinode.addr_congr {blk' : Nat → Block} (ha : d'.addrs = d.addrs)
    (h : d.addrs ndirect ≠ 0 → blk' (d.addrs ndirect) = blk (d.addrs ndirect)) (p : Nat) :
    d'.addr blk' p = d.addr blk p := by
  unfold Dinode.addr
  rw [ha]
  split
  · rfl
  · split
    · rename_i hp
      rw [h hp.2]
    · rfl

namespace Fs

/-- The inode with that number, as the kernel sees it. -/
def node (s : Fs) (i : Nat) : Dinode := if s.valid i then s.ip i else s.dinode i

/-- The block at a place of an inode, or 0. -/
def addr (s : Fs) (i p : Nat) : Nat := (s.node i).addr s.blk p

/-- A byte of the content of an inode; a block that is not allocated is full of zeros. -/
def byte (s : Fs) (i k : Nat) : UInt8 :=
  if s.addr i (place (k / bsize)) = 0 then 0 else s.blk (s.addr i (place (k / bsize))) (k % bsize)

/-- The inodes in `I` hold blocks of the data area, each at one place, and the map has them in use. -/
structure Held (I : Nat → Prop) (s : Fs) : Prop where
  number : ∀ i, I i → i < ninodes
  range : ∀ i p, I i → s.addr i p ≠ 0 → nmeta ≤ s.addr i p ∧ s.addr i p < fsSize
  unique : ∀ i p j q, I i → I j → s.addr i p ≠ 0 → s.addr i p = s.addr j q → i = j ∧ p = q
  set : ∀ i p, I i → s.addr i p ≠ 0 → s.bit (s.addr i p) = true
  reserved : ∀ b, b < nmeta → s.bit b = true

theorem Held.subset {J : Nat → Prop} {s : Fs} (h : Held I s) (hsub : ∀ i, J i → I i) : Held J s where
  number i hi := h.number i (hsub i hi)
  range i p hi := h.range i p (hsub i hi)
  unique i p j q hi hj := h.unique i p j q (hsub i hi) (hsub j hj)
  set i p hi := h.set i p (hsub i hi)
  reserved := h.reserved

end Fs

end Xv6.Disk
