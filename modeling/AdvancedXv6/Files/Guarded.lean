import AdvancedXv6.Files.Modes

/-! Reading and writing through descriptors of every kind: where the permission check is sound. -/

namespace Xv6.Files
open Function Effect Run

variable {v : Version} {H G L : List Nat} {k t : Kernel} {i f n fd b : Nat} {img : Image}

/-! ### Where reading and writing return -/

section Returns
variable {α β : Type}

/-- The program does not panic. -/
def Kernel.Returns (k : Kernel) (m : M α) : Prop := ∃ a t, m k = .ok a t

theorem returns_iff {m : M α} : k.Returns m ↔ wp m k (fun _ _ => True) fun _ _ => False := by
  constructor
  · rintro ⟨a, t, h⟩
    exact wp_of_ok h trivial
  · intro h
    obtain ⟨a, t, ht, -⟩ := exists_ok_of_wp h
    exact ⟨a, t, ht⟩

end Returns

/-- The first `b` blocks of the inode are allocated or can be. -/
def Kernel.Mapped (k : Kernel) (n b : Nat) : Prop :=
  b ≤ (k.data n).blocks ∨
    (0 < k.outstanding ∧ blocksFor b - blocksFor (k.data n).blocks ≤ k.free)

theorem bmapTo_returns : k.Returns (bmapTo n b) ↔ k.Mapped n b := by
  rw [returns_iff]
  simp only [bmapTo, wp_bind, wp_get, wp_ite, wp_throw, wp_modify, wp_pure, Kernel.Mapped]
  constructor
  · rintro ⟨h, -⟩
    rcases Nat.lt_or_ge (k.data n).blocks b with hlt | hge
    · obtain ⟨hfree, hout⟩ := h hlt
      refine .inr ⟨Nat.pos_of_ne_zero fun hz => (hout hfree).1 hz, Nat.le_of_not_lt hfree⟩
    · exact .inl hge
  · intro h
    refine ⟨fun hlt => ?_, fun _ => trivial⟩
    obtain ⟨hout, hfree⟩ := h.resolve_left (Nat.not_le_of_lt hlt)
    exact ⟨Nat.not_lt_of_le hfree, fun _ => ⟨Nat.ne_of_gt hout, fun _ => trivial⟩⟩

/-- After a program that leaves the inodes, what holds of all such states decides. -/
theorem wp_same {α : Type} {m : M α} {Q : α → Kernel → Prop} (hm : Ends m k fun _ t => Same k t)
    (hQ : ∀ a t, Same k t → Q a t) : wp m k Q (fun _ _ => False) ↔ k.Returns m := by
  rw [returns_iff]
  exact wp_congr fun a t ht => iff_of_true (hQ a t (hm.ok ht)) trivial

theorem readi_returns (off N : Nat) (io : Int) : k.Returns (readi i off N io) ↔
    ((k.inode i).copy.type ≠ .dev → off ≤ (k.data (k.inode i).inum).size → off ≤ (off + N) % 2 ^ 32 →
      off < min (off + N) (k.data (k.inode i).inum).size →
      k.Mapped (k.inode i).inum (blocksTo (min (off + N) (k.data (k.inode i).inum).size))) := by
  rw [returns_iff]
  simp only [readi, wp_bind, wp_get, wp_ite, wp_pure]
  rw [wp_same (bmapTo_spec k _ _) fun _ _ _ => trivial, bmapTo_returns]
  generalize (k.data (k.inode i).inum).size = size
  have hlen : off ≤ size → off + (if size < off + N then size - off else N) = min (off + N) size := by
    intro hle
    split
    · omega
    · omega
  constructor
  · rintro ⟨-, h⟩ htype hsize hover hlt
    rw [← hlen hsize] at hlt ⊢
    exact ((h htype).2 (not_or.mpr ⟨Nat.not_lt_of_le hsize, Nat.not_lt_of_le hover⟩)).1 (by omega)
  · intro h
    refine ⟨fun _ => trivial, fun htype => ⟨fun _ => trivial, fun hrange => ⟨fun hpos => ?_, fun _ => trivial⟩⟩⟩
    rw [not_or, Nat.not_lt, Nat.not_lt] at hrange
    have hlen := hlen hrange.1
    rw [hlen]
    exact h htype hrange.1 hrange.2 (by omega)

/-- The blocks that the read covers are allocated. -/
def Kernel.ReadFits (k : Kernel) (f N : Nat) : Prop :=
  ∀ i, (k.file f).ip = some i → (k.file f).readable = true → (k.inode i).copy.type ≠ .dev →
    (k.file f).off ≤ (k.data (k.inode i).inum).size → (k.file f).off ≤ ((k.file f).off + N) % 2 ^ 32 →
    (k.file f).off < min ((k.file f).off + N) (k.data (k.inode i).inum).size →
    k.Mapped (k.inode i).inum (blocksTo (min ((k.file f).off + N) (k.data (k.inode i).inum).size))

theorem fileread_returns (h : Inv v H G [] k) (hf : f < nfile) (htype : (k.file f).type = .inode)
    (hip : (k.file f).ip = some i) (N : Nat) (io : Int) : k.Returns (fileread f N io) ↔ k.ReadFits f N := by
  obtain ⟨hi, hpos, hvalid, hfree⟩ := h.live_inode hf htype hip
  have hlock := h.lockAt hi hpos fun hv => absurd hvalid (Bool.eq_false_iff.mp hv)
  have hunlock : ∀ (t : Kernel) (r : Int), t.inode = (k.lockedAt i).inode →
      wp (iunlock i) t (fun _ t => wp (pure r : M Int) t (fun _ _ => True) fun _ _ => False) fun _ _ => False := by
    intro t r ht
    refine wp_of_ok (iunlock_ok ?_ ?_) ((wp_pure r).mpr trivial)
    · rw [ht]
      exact (hlock.lock i List.mem_cons_self).2.2
    · rw [ht]
      exact (hlock.locked i hi).mpr List.mem_cons_self
  have hcopy : ((k.lockedAt i).inode i).copy = (k.inode i).copy := by
    rw [Kernel.lockedAt, Kernel.setInode_self, hvalid, if_pos rfl]
  have hinum : ((k.lockedAt i).inode i).inum = (k.inode i).inum := by
    rw [Kernel.lockedAt, Kernel.setInode_self]
  have hip' : fileIp f k = .ok i k := by
    rw [fileIp, bind_ok (rfl : (get : M Kernel) k = .ok k k), hip]
    rfl
  have hlocked := ilock_ok hpos hfree fun hv => absurd hvalid (Bool.eq_false_iff.mp hv)
  rw [returns_iff]
  simp only [fileread, wp_bind, wp_get, wp_ite, htype]
  rw [wp_iff_of_ok hip', wp_iff_of_ok hlocked, wp_same (readi_spec _ _ _ _ _) fun r t ht => ⟨fun _ =>
    (wp_modify _).mpr (hunlock _ r ht.inode), fun _ => hunlock t r ht.inode⟩, readi_returns, hcopy, hinum]
  constructor
  · rintro ⟨-, hfits⟩ j hj hread
    obtain rfl := Option.some.inj (hip.symm.trans hj)
    exact hfits (Bool.eq_false_iff.not_left.mpr hread)
  · intro hfits
    exact ⟨fun _ => (wp_pure _).mpr trivial, fun hread => hfits i hip (eq_true_of_ne_false hread)⟩

/-! ### Writing -/

/-- How many bytes of `len` are written at `off`, if there are blocks for them: the chunks that end within
the largest file. -/
def written (off len : Nat) : Nat :=
  if off + len ≤ maxFile * bsize then len else (maxFile * bsize - off) / maxWrite * maxWrite

theorem written_chunk {off len c : Nat} (hc : c = min len maxWrite) (hfit : off + c ≤ maxFile * bsize) :
    written off len = c + written (off + c) (len - c) := by
  have hmax : maxFile * bsize = 71680 := rfl
  have hw : maxWrite = 1536 := rfl
  rw [hw] at hc
  rw [hmax] at hfit
  rw [written, written, hmax, hw]
  split <;> split <;> omega

theorem written_none {off len : Nat} (hpos : 0 < len) (hfit : maxFile * bsize < off + min len maxWrite) :
    written off len = 0 := by
  have hmax : maxFile * bsize = 71680 := rfl
  have hw : maxWrite = 1536 := rfl
  rw [hmax, hw] at hfit
  rw [written, hmax, hw]
  split <;> omega

theorem blocksFor_mono {a b : Nat} (h : a ≤ b) : blocksFor a ≤ blocksFor b := by
  unfold blocksFor
  split <;> split <;> omega

theorem blocksTo_mono {a b : Nat} (h : a ≤ b) : blocksTo a ≤ blocksTo b :=
  Nat.div_le_div_right (by omega)

/-- What is needed for `c` blocks is what is needed for the first `b` of them and then for the rest. -/
theorem needs_split {a b c free : Nat} (h : blocksFor b - blocksFor a ≤ free) (hbc : b ≤ c) :
    blocksFor c - blocksFor (max a b) ≤ free - (blocksFor b - blocksFor a) ↔ blocksFor c - blocksFor a ≤ free := by
  have hmono := blocksFor_mono hbc
  rcases Nat.le_total a b with hab | hab
  · have := blocksFor_mono hab
    rw [Nat.max_eq_right hab]
    omega
  · have := blocksFor_mono hab
    rw [Nat.max_eq_left hab]
    omega

/-- The state in which the first `b` blocks are allocated. -/
def Kernel.mapped (k : Kernel) (n b : Nat) : Kernel :=
  if (k.data n).blocks < b then { k.setData n fun d => { d with blocks := b } with
    free := k.free - (blocksFor b - blocksFor (k.data n).blocks) }
  else k

theorem Kernel.mapped_inode (k : Kernel) (n b : Nat) : (k.mapped n b).inode = k.inode := by
  unfold Kernel.mapped
  split <;> rfl

theorem Kernel.mapped_version (k : Kernel) (n b : Nat) : (k.mapped n b).version = k.version := by
  unfold Kernel.mapped
  split <;> rfl

theorem bmapTo_ok (h : k.Mapped n b) : bmapTo n b k = .ok () (k.mapped n b) := by
  obtain ⟨_, t, ht⟩ := bmapTo_returns.mpr h
  have hstate : Ends (bmapTo n b) k fun _ t => t = k.mapped n b := by
    simp only [bmapTo, Ends, wp_bind, wp_get, wp_ite, wp_throw, wp_modify, wp_pure, Kernel.mapped]
    refine ⟨fun hlt => ⟨fun _ => trivial, fun _ => ⟨fun _ => trivial, fun _ => ?_⟩⟩, fun hge => ?_⟩
    · rw [if_pos hlt]
    · rw [if_neg hge]
  rw [ht, hstate.ok ht]

/-- The state that `writei` leaves where it writes. -/
def Kernel.wrote (k : Kernel) (i off : Nat) (src : List UInt8) : Kernel :=
  let n := (k.inode i).inum
  let m := (k.mapped n (blocksTo (off + src.length))).setData n fun d =>
    { d with bytes := d.bytes.take off ++ src ++ d.bytes.drop (off + src.length) }
  if (k.data n).size < off + src.length then
    { m with dinode := update m.dinode n ((k.inode i).copy.pack k.version) }
  else m

section Writei
variable {off : Nat} {src : List UInt8}

theorem writei_dev (hdev : (k.inode i).copy.type = .dev) : writei i off src k =
    .ok (if (k.inode i).copy.driven then src.length else -1) k := by
  have hw : wp (writei i off src) k (fun r t => r = (if (k.inode i).copy.driven then (src.length : Int) else -1) ∧ t = k)
      fun _ _ => False := by
    simp only [writei, wp_bind, wp_get, wp_ite, wp_pure]
    exact ⟨fun _ => ⟨trivial, trivial⟩, fun h => absurd hdev h⟩
  obtain ⟨_, _, ht, rfl, rfl⟩ := exists_ok_of_wp hw
  exact ht

theorem writei_bad (hdev : (k.inode i).copy.type ≠ .dev)
    (hbad : (k.data (k.inode i).inum).size < off ∨ maxFile * bsize < off + src.length) :
    writei i off src k = .ok (-1) k := by
  have hw : wp (writei i off src) k (fun r t => r = -1 ∧ t = k) fun _ _ => False := by
    simp only [writei, wp_bind, wp_get, wp_ite, wp_pure]
    refine ⟨fun h => absurd h hdev, fun _ => ⟨fun _ => ⟨trivial, trivial⟩, fun hr =>
      ⟨fun _ => ⟨trivial, trivial⟩, fun hle => ?_⟩⟩⟩
    exact absurd hbad (not_or.mpr ⟨fun h => hr (.inl h), hle⟩)
  obtain ⟨_, _, ht, rfl, rfl⟩ := exists_ok_of_wp hw
  exact ht

variable (hdev : (k.inode i).copy.type ≠ .dev) (hsize : off ≤ (k.data (k.inode i).inum).size)
  (hmax : off + src.length ≤ maxFile * bsize) (hpos : 0 < src.length)
include hdev hsize hmax hpos

theorem writei_full (hm : ¬k.Mapped (k.inode i).inum (blocksTo (off + src.length))) :
    ¬k.Returns (writei i off src) := by
  have hover : ¬((k.data (k.inode i).inum).size < off ∨ (off + src.length) % 2 ^ 32 < off) := by
    have : maxFile * bsize = 71680 := rfl
    omega
  rw [returns_iff]
  simp only [writei, wp_bind, wp_get, wp_ite]
  rintro ⟨-, h⟩
  obtain ⟨_, t, ht, -⟩ := exists_ok_of_wp ((((h hdev).2 hover).2 (Nat.not_lt_of_le hmax)).1 hpos)
  exact hm (bmapTo_returns.mp ⟨_, t, ht⟩)

theorem writei_good (hm : k.Mapped (k.inode i).inum (blocksTo (off + src.length))) :
    writei i off src k = .ok src.length (k.wrote i off src) := by
  have hover : ¬((k.data (k.inode i).inum).size < off ∨ (off + src.length) % 2 ^ 32 < off) := by
    have : maxFile * bsize = 71680 := rfl
    omega
  have hw : wp (writei i off src) k (fun r t => r = src.length ∧ t = k.wrote i off src) fun _ _ => False := by
    simp only [writei, iupdate, wp_bind, wp_get, wp_ite, wp_pure, wp_modify]
    refine ⟨fun h => absurd h hdev, fun _ => ⟨fun h => absurd h hover, fun _ => ⟨fun h =>
      absurd hmax (Nat.not_le_of_lt h), fun _ => ⟨fun _ => ?_, fun h => absurd hpos h⟩⟩⟩⟩
    rw [wp_iff_of_ok (bmapTo_ok hm)]
    have hi : (k.mapped (k.inode i).inum (blocksTo (off + src.length))).inode = k.inode := k.mapped_inode ..
    have hv : (k.mapped (k.inode i).inum (blocksTo (off + src.length))).version = k.version := k.mapped_version ..
    refine ⟨fun hlt => ⟨trivial, ?_⟩, fun hge => ⟨trivial, ?_⟩⟩
    · rw [Kernel.wrote]
      simp only [if_pos hlt, Kernel.setData, hi, hv]
    · rw [Kernel.wrote]
      simp only [if_neg hge]
  obtain ⟨_, _, ht, rfl, rfl⟩ := exists_ok_of_wp hw
  exact ht

end Writei

/-- The state in which a round of `filewrite` writes. -/
def Kernel.entering (k : Kernel) (i : Nat) : Kernel := k.begun.lockedAt i

/-- The state after a round that has written `r` bytes. -/
def Kernel.leaving (u : Kernel) (f i : Nat) (r : Int) : Kernel :=
  { (if 0 < r then u.setFile f fun g => { g with off := g.off + r.toNat } else u).unlockedAt i with
    outstanding := u.outstanding - 1 }

theorem wp_beginOp {Q : Unit → Kernel → Prop} {E : Panic → Kernel → Prop} :
    wp beginOp k Q E ↔ Q () k.begun := wp_modify _

theorem wp_endOp {Q : Unit → Kernel → Prop} {E : Panic → Kernel → Prop} :
    wp endOp k Q E ↔ Q () { k with outstanding := k.outstanding - 1 } := wp_modify _

section Rounds
variable {rounds : Nat} {src : List UInt8}

/-- The entry is in use, valid and not locked. -/
structure Kernel.Ready (k : Kernel) (i : Nat) : Prop where
  pos : 0 < (k.inode i).ref
  valid : (k.inode i).valid = true
  unlocked : (k.inode i).locked = false

theorem Kernel.Ready.ilock (h : k.Ready i) : ilock i k.begun = .ok () (k.entering i) :=
  ilock_ok (k := k.begun) h.pos h.unlocked fun hv => absurd h.valid (Bool.eq_false_iff.mp hv)

theorem Kernel.entering_inode (h : k.Ready i) : (k.entering i).inode i = { k.inode i with locked := true } := by
  have hb : k.begun.inode = k.inode := rfl
  rw [Kernel.entering, Kernel.lockedAt, Kernel.setInode_self, hb, h.valid, if_pos rfl]
  rw [← h.valid]

theorem round_returns (h : k.Ready i) (hne : src ≠ []) {r : Int} {u : Kernel}
    (hw : writei i (k.file f).off (src.take maxWrite) (k.entering i) = .ok r u)
    (hu : u.inode = (k.entering i).inode) : k.Returns (writeLoop f i (rounds + 1) src) ↔
      (0 ≤ r → r = (src.take maxWrite).length ∧
        (u.leaving f i r).Returns (writeLoop f i rounds (src.drop maxWrite))) := by
  have hsrc : src.isEmpty = false := by
    cases src with
    | nil => exact absurd rfl hne
    | cons => rfl
  have hfile : ((k.entering i).file f).off = (k.file f).off := rfl
  rw [returns_iff, returns_iff]
  have hunlock : ∀ w : Kernel, w.inode = (k.entering i).inode → iunlock i w = .ok () (w.unlockedAt i) := by
    intro w hw
    refine iunlock_ok ?_ ?_
    · rw [hw, Kernel.entering_inode h]
      exact h.pos
    · rw [hw, Kernel.entering_inode h]
  simp only [writeLoop, wp_bind, wp_ite, wp_pure, wp_get, wp_throw, wp_modify, wp_beginOp, wp_endOp, hsrc]
  rw [wp_iff_of_ok h.ilock, hfile, wp_iff_of_ok hw, wp_iff_of_ok (hunlock u hu),
    wp_iff_of_ok (hunlock (u.setFile f fun g => { g with off := g.off + r.toNat }) hu)]
  rcases lt_or_ge 0 r with hr | hr
  · have hl : u.leaving f i r = { (u.setFile f fun g => { g with off := g.off + r.toNat }).unlockedAt i with
        outstanding := u.outstanding - 1 } := by
      rw [Kernel.leaving, if_pos hr]
    rw [hl]
    constructor
    · rintro ⟨-, hrest⟩ -
      obtain ⟨-, hrest⟩ := (hrest Bool.false_ne_true).1 hr
      obtain ⟨hne, hrest⟩ := hrest (not_lt_of_gt hr)
      exact ⟨not_not.mp hne, hrest hne⟩
    · intro hrest
      obtain ⟨hr', hrest⟩ := hrest (le_of_lt hr)
      exact ⟨fun _ => trivial, fun _ => ⟨fun _ => ⟨fun _ => trivial, fun _ => ⟨fun hne => hne hr', fun _ => hrest⟩⟩,
        fun hno => absurd hr hno⟩⟩
  · have hl : u.leaving f i r = { u.unlockedAt i with outstanding := u.outstanding - 1 } := by
      rw [Kernel.leaving, if_neg (not_lt_of_ge hr)]
    rw [hl]
    constructor
    · rintro ⟨-, hrest⟩ h0
      obtain ⟨-, hrest⟩ := (hrest Bool.false_ne_true).2 (not_lt_of_ge hr)
      obtain ⟨hne, hrest⟩ := hrest (not_lt_of_ge h0)
      exact ⟨not_not.mp hne, hrest hne⟩
    · intro hrest
      refine ⟨fun _ => trivial, fun _ => ⟨fun hpos => absurd hpos (not_lt_of_ge hr), fun _ =>
        ⟨fun _ => trivial, fun h0 => ?_⟩⟩⟩
      obtain ⟨hr', hrest⟩ := hrest (not_lt.mp h0)
      exact ⟨fun hne => hne hr', fun _ => hrest⟩

theorem round_panics (h : k.Ready i) (hne : src ≠ [])
    (hw : ¬(k.entering i).Returns (writei i (k.file f).off (src.take maxWrite))) :
    ¬k.Returns (writeLoop f i (rounds + 1) src) := by
  have hsrc : src.isEmpty = false := by
    cases src with
    | nil => exact absurd rfl hne
    | cons => rfl
  have hfile : ((k.entering i).file f).off = (k.file f).off := rfl
  rw [returns_iff]
  simp only [writeLoop, wp_bind, wp_ite, wp_get, wp_beginOp, hsrc]
  rw [wp_iff_of_ok h.ilock, hfile]
  rintro ⟨-, hr⟩
  obtain ⟨r, t, ht, -⟩ := exists_ok_of_wp (hr Bool.false_ne_true)
  exact hw ⟨r, t, ht⟩

/-! The states of a round -/

theorem Kernel.wrote_inode (k : Kernel) (i off : Nat) (src : List UInt8) : (k.wrote i off src).inode = k.inode := by
  rw [← k.mapped_inode (k.inode i).inum (blocksTo (off + src.length))]
  unfold Kernel.wrote
  dsimp only
  split <;> rfl

theorem Kernel.wrote_file (k : Kernel) (i off : Nat) (src : List UInt8) : (k.wrote i off src).file = k.file := by
  unfold Kernel.wrote Kernel.mapped
  dsimp only
  split <;> split <;> rfl

theorem Kernel.wrote_free (k : Kernel) (i off : Nat) (src : List UInt8) : (k.wrote i off src).free =
    k.free - (blocksFor (blocksTo (off + src.length)) - blocksFor (k.data (k.inode i).inum).blocks) := by
  have hmono : ¬(k.data (k.inode i).inum).blocks < blocksTo (off + src.length) →
      blocksFor (blocksTo (off + src.length)) ≤ blocksFor (k.data (k.inode i).inum).blocks :=
    fun h => blocksFor_mono (Nat.le_of_not_lt h)
  unfold Kernel.wrote Kernel.mapped
  dsimp only
  split <;> split
  · rfl
  · have := hmono ‹_›
    simp only [Kernel.setData]
    omega
  · rfl
  · have := hmono ‹_›
    simp only [Kernel.setData]
    omega

theorem Kernel.wrote_data (k : Kernel) (i off : Nat) (src : List UInt8) :
    (k.wrote i off src).data (k.inode i).inum = { k.data (k.inode i).inum with
      bytes := (k.data (k.inode i).inum).bytes.take off ++ src ++
        (k.data (k.inode i).inum).bytes.drop (off + src.length)
      blocks := max (k.data (k.inode i).inum).blocks (blocksTo (off + src.length)) } := by
  unfold Kernel.wrote Kernel.mapped
  dsimp only
  split <;> split
  · rename_i hlt
    simp only [Kernel.setData, update_self, Nat.max_eq_right (Nat.le_of_lt hlt)]
  · rename_i hge
    simp only [Kernel.setData, update_self, Nat.max_eq_left (Nat.le_of_not_lt hge)]
  · rename_i hlt
    simp only [Kernel.setData, update_self, Nat.max_eq_right (Nat.le_of_lt hlt)]
  · rename_i hge
    simp only [Kernel.setData, update_self, Nat.max_eq_left (Nat.le_of_not_lt hge)]

theorem Kernel.wrote_size (k : Kernel) (i off : Nat) (src : List UInt8)
    (hoff : off ≤ (k.data (k.inode i).inum).size) :
    off + src.length ≤ ((k.wrote i off src).data (k.inode i).inum).size := by
  rw [Kernel.wrote_data]
  simp only [Data.size, List.length_append, List.length_take, List.length_drop] at hoff ⊢
  omega

theorem Kernel.leaving_data (u : Kernel) (r : Int) : (u.leaving f i r).data = u.data := by
  rw [Kernel.leaving]
  dsimp only
  split <;> rfl

theorem Kernel.leaving_free (u : Kernel) (r : Int) : (u.leaving f i r).free = u.free := by
  rw [Kernel.leaving]
  dsimp only
  split <;> rfl

theorem Kernel.leaving_off (u : Kernel) {r : Int} (hr : 0 < r) :
    ((u.leaving f i r).file f).off = (u.file f).off + r.toNat := by
  have hfile : (u.leaving f i r).file = (u.setFile f fun g => { g with off := g.off + r.toNat }).file := by
    rw [Kernel.leaving, if_pos hr]
    rfl
  rw [hfile, Kernel.setFile_self]

/-- What is written needs no more blocks than there are. -/
def Kernel.Room (k : Kernel) (i off len : Nat) : Prop :=
  (k.inode i).copy.type ≠ .dev → off ≤ (k.data (k.inode i).inum).size → 0 < written off len →
    blocksFor (blocksTo (off + written off len)) - blocksFor (k.data (k.inode i).inum).blocks ≤ k.free

theorem written_zero (off : Nat) : written off 0 = 0 := by
  have hmax : maxFile * bsize = 71680 := rfl
  have hw : maxWrite = 1536 := rfl
  rw [written, hmax, hw]
  split <;> omega

theorem Kernel.leaving_inode (h : k.Ready i) {u : Kernel} (hu : u.inode = (k.entering i).inode) (r : Int) :
    (u.leaving f i r).inode = k.inode := by
  have hi : (u.leaving f i r).inode = update u.inode i { u.inode i with locked := false } := by
    rw [Kernel.leaving]
    dsimp only
    split <;> rfl
  rw [hi, hu, Kernel.entering_inode h]
  have hsame : { k.inode i with locked := false } = k.inode i := by
    rw [← h.unlocked]
  have hin : (k.entering i).inode = update k.inode i ((k.entering i).inode i) := by
    rw [Kernel.entering, Kernel.lockedAt, Kernel.setInode_self]
    rfl
  rw [hin, update_idem]
  exact (congrArg (update k.inode i) hsame).trans (update_eq_self ..)

theorem writeLoop_returns (h : k.Ready i) (hlen : src.length ≤ rounds) :
    k.Returns (writeLoop f i rounds src) ↔ k.Room i (k.file f).off src.length := by
  induction rounds generalizing src k with
  | zero =>
    rw [Nat.le_zero.mp hlen]
    refine iff_of_true ⟨_, _, rfl⟩ fun _ _ hpos => ?_
    rw [written_zero] at hpos
    exact absurd hpos (Nat.lt_irrefl 0)
  | succ rounds ih =>
    by_cases hne : src = []
    · subst hne
      refine iff_of_true ⟨true, k, rfl⟩ fun _ _ hpos => ?_
      rw [List.length_nil, written_zero] at hpos
      exact absurd hpos (Nat.lt_irrefl 0)
    have hdrop : (src.drop maxWrite).length ≤ rounds := by
      have : 0 < src.length := List.length_pos_iff.mpr hne
      have : maxWrite = 1536 := rfl
      rw [List.length_drop]
      omega
    have hcopy : ((k.entering i).inode i).copy = (k.inode i).copy := by
      rw [Kernel.entering_inode h]
    have hinum : ((k.entering i).inode i).inum = (k.inode i).inum := by
      rw [Kernel.entering_inode h]
    have hchunk : (src.take maxWrite).length = min src.length maxWrite := by
      rw [List.length_take, Nat.min_comm]
    have hpos : 0 < src.length := List.length_pos_iff.mpr hne
    have hready : ∀ (u : Kernel) (r : Int), u.inode = (k.entering i).inode → (u.leaving f i r).Ready i := by
      intro u r hu
      have hi : (u.leaving f i r).inode = k.inode := Kernel.leaving_inode h hu r
      refine ⟨?_, ?_, ?_⟩
      · rw [hi]
        exact h.pos
      · rw [hi]
        exact h.valid
      · rw [hi]
        exact h.unlocked
    by_cases hdev : (k.inode i).copy.type = .dev
    · rw [round_returns h hne (writei_dev (hcopy ▸ hdev)) rfl]
      refine iff_of_true (fun hr => ?_) fun hno => absurd hdev hno
      have hdrv : ((k.entering i).inode i).copy.driven := by
        by_contra hno
        rw [if_neg hno] at hr
        exact absurd hr (by decide)
      rw [if_pos hdrv]
      refine ⟨rfl, (ih (hready _ _ rfl) hdrop).mpr fun hno => ?_⟩
      rw [Kernel.leaving_inode h rfl] at hno
      exact absurd hdev hno
    by_cases hbad : (k.data (k.inode i).inum).size < (k.file f).off ∨
        maxFile * bsize < (k.file f).off + (src.take maxWrite).length
    · have hbad' : ((k.entering i).data ((k.entering i).inode i).inum).size < (k.file f).off ∨
          maxFile * bsize < (k.file f).off + (src.take maxWrite).length := by
        rw [hinum]
        exact hbad
      rw [round_returns h hne (writei_bad (hcopy ▸ hdev) hbad') rfl]
      refine iff_of_true (fun hr => absurd hr (by decide)) fun _ hoff hw => ?_
      rw [written_none hpos (hchunk ▸ hbad.resolve_left (Nat.not_lt_of_le hoff))] at hw
      exact absurd hw (Nat.lt_irrefl 0)
    rw [not_or, Nat.not_lt, Nat.not_lt] at hbad
    obtain ⟨hoff, hmax⟩ := hbad
    have hcpos : 0 < (src.take maxWrite).length := by
      have : maxWrite = 1536 := rfl
      omega
    have hsplit := written_chunk hchunk hmax
    have hmono : blocksFor (blocksTo ((k.file f).off + (src.take maxWrite).length)) ≤
        blocksFor (blocksTo ((k.file f).off + written (k.file f).off src.length)) :=
      blocksFor_mono (blocksTo_mono (by omega))
    by_cases hm : (k.entering i).Mapped (k.inode i).inum (blocksTo ((k.file f).off + (src.take maxWrite).length))
    · have hgood := writei_good (k := k.entering i) (i := i) (hcopy ▸ hdev) (hinum ▸ hoff) hmax hcpos (hinum ▸ hm)
      have hu := (k.entering i).wrote_inode i (k.file f).off (src.take maxWrite)
      have hfree := (k.entering i).wrote_free i (k.file f).off (src.take maxWrite)
      have hdata := (k.entering i).wrote_data i (k.file f).off (src.take maxWrite)
      have hsize := (k.entering i).wrote_size i (k.file f).off (src.take maxWrite) (hinum ▸ hoff)
      have hfile := congrArg (fun g => (g f).off) ((k.entering i).wrote_file i (k.file f).off (src.take maxWrite))
      rw [hinum] at hfree hdata hsize
      rw [round_returns h hne hgood hu, ih (hready _ _ hu) hdrop]
      generalize (k.entering i).wrote i (k.file f).off (src.take maxWrite) = u at hu hfree hdata hsize hfile
      have hcint : (0 : Int) < (src.take maxWrite).length := Int.natCast_pos.mpr hcpos
      have hmapped : blocksFor (blocksTo ((k.file f).off + (src.take maxWrite).length)) -
          blocksFor (k.data (k.inode i).inum).blocks ≤ k.free := by
        rcases hm with hm | ⟨-, hm⟩
        · have := blocksFor_mono hm
          exact Nat.le_trans (Nat.le_of_eq (Nat.sub_eq_zero_of_le this)) (Nat.zero_le _)
        · exact hm
      have hblocks : (u.data (k.inode i).inum).blocks =
          max (k.data (k.inode i).inum).blocks (blocksTo ((k.file f).off + (src.take maxWrite).length)) := by
        rw [hdata]
        rfl
      have hfile : (u.file f).off = (k.file f).off := hfile
      have hfree : u.free = k.free - (blocksFor (blocksTo ((k.file f).off + (src.take maxWrite).length)) -
          blocksFor (k.data (k.inode i).inum).blocks) := hfree
      have hrest : src.length - maxWrite = src.length - (src.take maxWrite).length := by omega
      rw [Kernel.Room, Kernel.Room, Kernel.leaving_inode h hu, Kernel.leaving_off u hcint, Kernel.leaving_data,
        Kernel.leaving_free, List.length_drop, Int.toNat_natCast, hfree, hblocks, hfile, hrest, hsplit, ← Nat.add_assoc]
      have hneeds := needs_split hmapped
        (blocksTo_mono (Nat.le_add_right ((k.file f).off + (src.take maxWrite).length)
          (written ((k.file f).off + (src.take maxWrite).length) (src.length - (src.take maxWrite).length))))
      constructor
      · intro hr _ _ _
        by_cases hw : 0 < written ((k.file f).off + (src.take maxWrite).length) (src.length - (src.take maxWrite).length)
        · exact hneeds.mp ((hr (Int.le_of_lt hcint)).2 hdev hsize hw)
        · rw [Nat.eq_zero_of_not_pos hw]
          exact hmapped
      · intro hr _
        exact ⟨rfl, fun _ _ hw => hneeds.mpr (hr hdev hoff (Nat.add_pos_left hcpos _))⟩
    · refine iff_of_false (round_panics h hne (writei_full (hcopy ▸ hdev) (hinum ▸ hoff) hmax hcpos (hinum ▸ hm)))
        fun hroom => hm (.inr ⟨Nat.succ_pos _, ?_⟩)
      have := hroom hdev hoff (by omega)
      have hdata : (k.entering i).data = k.data := rfl
      have hfree : (k.entering i).free = k.free := rfl
      rw [hdata, hfree]
      omega

end Rounds

/-- There are blocks for what can be written. -/
def Kernel.WriteFits (k : Kernel) (f len : Nat) : Prop :=
  ∀ i, (k.file f).ip = some i → (k.file f).writable = true → k.Room i (k.file f).off len

theorem filewrite_returns (h : Inv v H G [] k) (hf : f < nfile) (htype : (k.file f).type = .inode)
    (hip : (k.file f).ip = some i) (src : List UInt8) (io : Int) :
    k.Returns (filewrite f src io) ↔ k.WriteFits f src.length := by
  obtain ⟨-, hpos, hvalid, hfree⟩ := h.live_inode hf htype hip
  have hip' : fileIp f k = .ok i k := by
    rw [fileIp, bind_ok (rfl : (get : M Kernel) k = .ok k k), hip]
    rfl
  have hloop := writeLoop_returns (f := f) ⟨hpos, hvalid, hfree⟩ (Nat.le_refl src.length)
  rw [returns_iff] at hloop ⊢
  simp only [filewrite, wp_bind, wp_get, wp_ite, htype, wp_pure]
  rw [wp_iff_of_ok hip', hloop]
  constructor
  · rintro ⟨-, hroom⟩ j hj hw
    obtain rfl := Option.some.inj (hip.symm.trans hj)
    exact hroom (Bool.eq_false_iff.not_left.mpr hw)
  · intro hfits
    exact ⟨fun _ => trivial, fun hw => hfits i hip (eq_true_of_ne_false hw)⟩

/-! ### The permission check in front -/

/-! What is noted -/

theorem ilock_notes (k : Kernel) (i : Nat) : Ends (ilock i) k fun _ t => t.notes = k.notes :=
  (ilock_state k i).mono fun _ _ ht => ht.1 ▸ rfl

theorem iunlock_notes (k : Kernel) (i : Nat) : Ends (iunlock i) k fun _ t => t.notes = k.notes :=
  (iunlock_state k i).mono fun _ _ ht => ht.1 ▸ rfl

theorem writei_notes (k : Kernel) (i off : Nat) (src : List UInt8) :
    Ends (writei i off src) k fun _ t => t.notes = k.notes := by
  unfold writei
  rw [ends_get_bind]
  refine .ite (fun _ => .pure rfl) fun _ => ?_
  rw [ends_get_bind]
  refine .ite (fun _ => .pure rfl) fun _ => .ite (fun _ => .pure rfl) fun _ => ?_
  refine .ite (fun _ => ?_) fun _ => .pure rfl
  refine (bmapTo_spec k _ _).bind fun _ t ht => ?_
  rw [ends_modify_bind]
  refine .ite (fun _ => ?_) fun _ => .pure ht.notes
  rw [iupdate, ends_modify_bind]
  exact .pure ht.notes

theorem fileread_notes (k : Kernel) (f N : Nat) (io : Int) :
    Ends (fileread f N io) k fun _ t => t.notes = k.notes := by
  rw [fileread, ends_get_bind]
  refine .ite (fun _ => .pure rfl) fun _ => ?_
  split
  · exact .pure rfl
  · exact .throw _
  · refine (fileIp_spec k f).bind fun i t ht => ?_
    obtain ⟨rfl, -⟩ := ht
    refine (ilock_notes t i).bind fun _ u hu => ?_
    refine (readi_spec u i _ N io).bind fun r w hw => ?_
    refine .ite (fun _ => ?_) fun _ => ?_
    · rw [ends_modify_bind]
      exact (iunlock_notes _ i).bind fun _ x hx => .pure ((hx.trans hw.notes).trans hu)
    · exact (iunlock_notes w i).bind fun _ x hx => .pure ((hx.trans hw.notes).trans hu)

theorem writeLoop_notes (f i rounds : Nat) (src : List UInt8) (k : Kernel) :
    Ends (writeLoop f i rounds src) k fun _ t => t.notes = k.notes := by
  induction rounds generalizing src k with
  | zero => exact .pure rfl
  | succ rounds ih =>
    rw [writeLoop]
    refine .ite (fun _ => .pure rfl) fun _ => ?_
    refine (beginOp_spec k).bind fun _ t ht => ?_
    refine (ilock_notes t i).bind fun _ u hu => ?_
    rw [ends_get_bind]
    refine (writei_notes u i _ _).bind fun r w hw => ?_
    have hw := (hw.trans hu).trans ht.notes
    have hrest : ∀ x : Kernel, x.notes = k.notes → Ends (do
        iunlock i
        endOp
        if r < 0 then return false
        if r ≠ (src.take maxWrite).length then throw .shortWrite
        writeLoop f i rounds (src.drop maxWrite)) x fun _ t => t.notes = k.notes := by
      intro x hx
      refine (iunlock_notes x i).bind fun _ y hy => (endOp_spec y).bind fun _ z hz => ?_
      have hz := (hz.notes.trans hy).trans hx
      refine .ite (fun _ => .pure hz) fun _ => .ite (fun _ => .throw _) fun _ => ?_
      exact (ih _ z).mono fun _ t ht => ht.trans hz
    refine .ite (fun _ => ?_) fun _ => hrest w hw
    rw [ends_modify_bind]
    exact hrest _ hw

theorem filewrite_notes (k : Kernel) (f : Nat) (src : List UInt8) (io : Int) :
    Ends (filewrite f src io) k fun _ t => t.notes = k.notes := by
  rw [filewrite, ends_get_bind]
  refine .ite (fun _ => .pure rfl) fun _ => ?_
  split
  · exact .pure rfl
  · exact .throw _
  · refine (fileIp_spec k f).bind fun i t ht => ?_
    obtain ⟨rfl, -⟩ := ht
    exact (writeLoop_notes f i _ src t).bind fun _ u hu => .pure hu

theorem forbidden_notes (hv : k.version = .a1) (f bit : Nat) :
    Ends (forbidden f bit) k fun _ t => ∃ i, t.notes = .consulted i :: k.notes := by
  rw [forbidden, ends_get_bind, hv]
  refine .ite (fun h => absurd h (by decide)) fun _ => ?_
  refine (fileIp_spec k f).bind fun i t ht => ?_
  obtain ⟨rfl, -⟩ := ht
  refine (ilock_notes t i).bind fun _ u hu => ?_
  rw [ends_modify_bind, ends_get_bind]
  refine (iunlock_notes _ i).bind fun _ w hw => .pure ⟨i, hw.trans ?_⟩
  exact congrArg _ hu

/-- A check and what it guards. -/
def guarded (f bit : Nat) (body : M Int) : M Ret := do
  if ← forbidden f bit then return .denied
  return .int (← body)

/-- The call returns what the function behind it returns in the same state, or is refused, and the
permissions that it consults are those of the inode of the file. -/
def Kernel.Faithful (k : Kernel) (f : Nat) (call : M Ret) (body : M Int) : Prop :=
  ∃ r t new, call k = .ok r t ∧ t.notes = new ++ k.notes ∧
    (∀ i, .consulted i ∈ new → (k.file f).type = .inode ∧ (k.file f).ip = some i) ∧
    (r = .denied ∧ (k.file f).type = .inode ∨ ∃ ns, (Ret.int <$> body) { k with notes := ns } = .ok r t)

/-- The descriptor is for a file or a device, and what is permitted finds its blocks. -/
def Kernel.Sound (k : Kernel) (f bit : Nat) (fits : Prop) : Prop :=
  (k.file f).type = .inode ∧ ∀ i, (k.file f).ip = some i →
    (granted k.notes (k.inode i).inum).testBit bit = true → fits

theorem sysRead_guarded (h : Inv v H G L k) (hofile : k.proc.ofile fd = some f) (N : Nat) (io : Int) :
    sysRead fd (some N) io k = guarded f 0 (fileread f N io) k := bind_ok (argfd_ok h hofile)

theorem sysWrite_guarded (h : Inv v H G L k) (hofile : k.proc.ofile fd = some f) (src : List UInt8) (io : Int) :
    sysWrite fd (some src) io k = guarded f 1 (filewrite f src io) k := bind_ok (argfd_ok h hofile)

/-- Any return of the guarded program has consulted one inode. -/
theorem guarded_notes (hv : k.version = .a1) (f bit : Nat) {body : M Int}
    (hnotes : ∀ k, Ends body k fun _ t => t.notes = k.notes) :
    Ends (guarded f bit body) k fun _ t => ∃ i, t.notes = .consulted i :: k.notes := by
  refine (forbidden_notes hv f bit).bind fun bad t ht => ?_
  refine .ite (fun _ => .pure ht) fun _ => ?_
  refine (hnotes t).bind fun _ u hu => .pure ?_
  rwa [hu]

theorem guarded_faithful (h : Inv .a1 H G [] k) (hf : f < nfile) {bit : Nat} (hbit : bit < 3) {body : M Int}
    {fits : Prop} (hnotes : ∀ k, Ends body k fun _ t => t.notes = k.notes)
    (hfits : ∀ i, (k.file f).type = .inode → (k.file f).ip = some i →
      ((k.note (.consulted i)).Returns body ↔ fits)) :
    k.Faithful f (guarded f bit body) body ↔ k.Sound f bit fits := by
  by_cases htype : (k.file f).type = .inode
  · obtain ⟨i, hi, hip, -⟩ := h.opened f hf ⟨h.closed f hf htype, htype⟩
    have hrun : guarded f bit body k = (do
        if !(granted k.notes (k.inode i).inum).testBit bit then return .denied
        return .int (← body) : M Ret) (k.note (.consulted i)) := bind_ok (forbidden_ok h hf htype hip hbit)
    have hsound : k.Sound f bit fits ↔ ((granted k.notes (k.inode i).inum).testBit bit = true → fits) := by
      constructor
      · rintro ⟨-, hs⟩
        exact hs i hip
      · intro hs
        refine ⟨htype, fun j hj => ?_⟩
        obtain rfl := Option.some.inj (hip.symm.trans hj)
        exact hs
    rw [hsound, ← hfits i htype hip]
    cases hg : (granted k.notes (k.inode i).inum).testBit bit with
    | false =>
      rw [hg] at hrun
      refine iff_of_true ⟨.denied, k.note (.consulted i), [.consulted i], hrun, rfl, fun j hj => ?_,
        .inl ⟨rfl, htype⟩⟩ fun hno => absurd hno Bool.false_ne_true
      obtain rfl := Note.consulted.inj (List.mem_singleton.mp hj)
      exact ⟨htype, hip⟩
    | true =>
      rw [hg] at hrun
      constructor
      · rintro ⟨r, t, new, ht, -⟩ -
        have hmap : (Ret.int <$> body) (k.note (.consulted i)) = .ok r t := hrun.symm.trans ht
        simp only [Functor.map, EStateM.map] at hmap
        split at hmap
        · rename_i x u hbody
          exact ⟨x, u, hbody⟩
        · exact absurd hmap (by simp)
      · intro hret
        obtain ⟨x, t, ht⟩ := hret rfl
        have hmap : (Ret.int <$> body) (k.note (.consulted i)) = .ok (.int x) t := by
          simp only [Functor.map, EStateM.map, ht]
        refine ⟨.int x, t, [.consulted i], hrun.trans hmap, (hnotes _).ok ht, fun j hj => ?_, .inr ⟨_, hmap⟩⟩
        obtain rfl := Note.consulted.inj (List.mem_singleton.mp hj)
        exact ⟨htype, hip⟩
  · refine iff_of_false ?_ fun hs => htype hs.1
    rintro ⟨r, t, new, ht, hnew, honly, -⟩
    obtain ⟨i, hi⟩ := (guarded_notes h.version f bit hnotes).ok ht
    have : new = [.consulted i] := List.append_cancel_right (hnew.symm.trans hi)
    exact htype (honly i (this ▸ List.mem_cons_self)).1

/-- A permission check in front of a read or a write is sound where the descriptor is for an inode, and the
blocks that are read or written can be had. -/
theorem faithful_iff (img : Image) (h : Reaches Kernel.step (img.boot .a1) k)
    (hofile : k.proc.ofile fd = some f) (io : Int) :
    (∀ N, k.Faithful f (sysRead fd (some N) io) (fileread f N io) ↔ k.Sound f 0 (k.ReadFits f N)) ∧
    ∀ src, k.Faithful f (sysWrite fd (some src) io) (filewrite f src io) ↔
      k.Sound f 1 (k.WriteFits f src.length) := by
  obtain ⟨H, hk⟩ := inv_reaches h
  have hf := (hk.ofile k.proc List.mem_cons_self fd f hofile).2
  constructor
  · intro N
    rw [Kernel.Faithful, sysRead_guarded hk hofile]
    exact guarded_faithful hk hf (by decide) (fun k => fileread_notes k f N io) fun i htype hip =>
      fileread_returns (hk.consult i) hf htype hip N io
  · intro src
    rw [Kernel.Faithful, sysWrite_guarded hk hofile]
    exact guarded_faithful hk hf (by decide) (fun k => filewrite_notes k f src io) fun i htype hip =>
      filewrite_returns (hk.consult i) hf htype hip src io

/-- Reading a pipe panics: the entry of the file table has never been for an inode. -/
theorem pipe_panics : ∃ k t, Run.exec Kernel.step (Image.shell.boot .a1) [.call (.pipe true true)] = some k ∧
    k.proc.ofile 0 = some 0 ∧ (k.file 0).type = .pipe ∧ sysRead 0 (some 1) 1 k = .error .ilock t := by
  have h : ((Run.exec Kernel.step (Image.shell.boot .a1) [.call (.pipe true true)]).map fun k =>
      (k.proc.ofile 0, (k.file 0).type, match sysRead 0 (some 1) 1 k with
        | .error .ilock _ => true
        | _ => false)) = some (some 0, .pipe, true) := by
    decide
  obtain ⟨k, hk, hr⟩ := Option.map_eq_some_iff.mp h
  simp only [Prod.mk.injEq] at hr
  obtain ⟨hofile, htype, hrun⟩ := hr
  split at hrun
  · rename_i t ht
    exact ⟨k, t, hk, hofile, htype, ht⟩
  · exact absurd hrun Bool.false_ne_true

/-- An end of a pipe is no descriptor for an inode. -/
theorem faithful_iff_pipe : ∃ k, Run.exec Kernel.step (Image.shell.boot .a1) [.call (.pipe true true)] = some k ∧
    ¬k.Faithful 0 (sysRead 0 (some 1) 1) (fileread 0 1 1) := by
  have h : ((Run.exec Kernel.step (Image.shell.boot .a1) [.call (.pipe true true)]).map fun k =>
      (k.proc.ofile 0, (k.file 0).type)) = some (some 0, .pipe) := by
    decide
  obtain ⟨k, hk, hr⟩ := Option.map_eq_some_iff.mp h
  obtain ⟨hofile, htype⟩ := Prod.mk.inj hr
  refine ⟨k, hk, fun hs => ?_⟩
  have hsound := ((faithful_iff Image.shell ⟨_, hk⟩ hofile 1).1 1).mp hs
  rw [hsound.1] at htype
  exact absurd htype (by decide)

end Xv6.Files
