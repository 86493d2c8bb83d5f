import AdvancedXv6.Disk.Make
import AdvancedXv6.Disk.Runs
import AdvancedXv6.Disk.Names

/-! The image at the end of `mkfs`, as the kernel finds it when it boots. -/

namespace Xv6.Disk.Mkfs
open Function Effect Bytes Fs
variable {m : Image} {i j a b n p q off k : Nat} {files : List File}

def Image.shipped (m : Image) : Fs := coldFs m.disk

/-- The size that the root directory gets. -/
def rounded (size : Nat) : Nat := (size / bsize + 1) * bsize

/-! ### The map -/

theorem bit_fold (l : List Nat) (buf : Block) (k : Nat) :
    bit (l.foldl (fun buf i => update buf (i % bpb / 8) (buf (i % bpb / 8) ||| mask i)) buf) k =
      (bit buf k || decide (∃ i ∈ l, i % bpb = k)) := by
  induction l generalizing buf with
  | nil => simp
  | cons i l ih =>
    have hmask : mask i = mask (i % bpb) := by
      unfold mask
      rw [Nat.mod_mod_of_dvd i (by decide : 8 ∣ bpb)]
    have hset : update buf (i % bpb / 8) (buf (i % bpb / 8) ||| mask i) = setBit buf (i % bpb) := by
      rw [hmask]
      rfl
    rw [List.foldl_cons, ih, hset, bit_setBit]
    by_cases hik : k = i % bpb
    · rw [if_pos hik, Bool.true_or, decide_eq_true ⟨i, List.mem_cons_self .., hik.symm⟩, Bool.or_true]
    · rw [if_neg hik]
      congr 1
      rw [decide_eq_decide]
      constructor
      · rintro ⟨x, hx, heq⟩
        exact ⟨x, List.mem_cons_of_mem _ hx, heq⟩
      · rintro ⟨x, hx, heq⟩
        rcases List.mem_cons.mp hx with rfl | hx
        · exact absurd heq.symm hik
        · exact ⟨x, hx, heq⟩

theorem bit_zero (k : Nat) : Bytes.bit (fun _ => 0) k = false := by
  rw [bit_eq]
  exact Nat.zero_testBit _

/-- The bit of `b` in its sector of the map. -/
theorem bit_ballocBuf {used : Nat} :
    bit (ballocBuf (b / bpb * bpb) (min used ((b / bpb + 1) * bpb))) (b % bpb) = decide (b < used) := by
  unfold ballocBuf
  rw [bit_fold, bit_zero, Bool.false_or, decide_eq_decide]
  change (∃ i ∈ List.range' (b / 4096 * 4096) _, i % 4096 = b % 4096) ↔ _
  constructor
  · rintro ⟨i, hi, heq⟩
    rw [List.mem_range'_1] at hi
    change b / 4096 * 4096 ≤ i ∧ i < b / 4096 * 4096 + (min used ((b / 4096 + 1) * 4096) - b / 4096 * 4096) at hi
    omega
  · intro hb
    refine ⟨b, ?_, rfl⟩
    rw [List.mem_range'_1]
    change b / 4096 * 4096 ≤ b ∧ b < b / 4096 * 4096 + (min used ((b / 4096 + 1) * 4096) - b / 4096 * 4096)
    omega

section Finish
variable (h : Holds files m)
include h

theorem Holds.bit (hb : b < fsSize) : m.finish.shipped.bit b = decide (b < m.freeblock) := by
  have hrange := bblock_range hb
  have hmap : bblock b - sb.bmapstart = b / bpb := by
    change b / bpb + sb.bmapstart - sb.bmapstart = b / bpb
    exact Nat.add_sub_cancel ..
  have hroot : rootIno < ninodes := by decide
  unfold Fs.bit Image.shipped coldFs Image.finish
  dsimp only
  by_cases hin : bblock b < sb.bmapstart + (m.freeblock + bpb - 1) / bpb
  · rw [if_pos ⟨hrange.1, hin⟩, hmap]
    exact bit_ballocBuf
  · have hne : bblock b ≠ iblock rootIno := by
      have := (iblock_range hroot).2
      omega
    have hlow : ¬b < m.freeblock := by
      change ¬b / 4096 + sb.bmapstart < sb.bmapstart + (m.freeblock + 4096 - 1) / 4096 at hin
      omega
    rw [if_neg fun hand => hin hand.2, decide_eq_false hlow]
    rw [stored_disk hne, h.made.map _ hrange.1 hrange.2, bit_zero]

/-- Outside the map nothing changes but the inode of the root directory. -/
theorem Holds.disk (ha : a < sb.bmapstart ∨ nmeta ≤ a) : m.finish.disk a =
    (m.stored rootIno { m.dinode rootIno with size := rounded (m.dinode rootIno).size }).disk a := by
  have hroom := h.made.room
  have hcap : fsSize ≤ 3 * bpb := by decide
  refine if_neg fun hand => ?_
  change sb.bmapstart ≤ a ∧ a < sb.bmapstart + (m.freeblock + 4096 - 1) / 4096 at hand
  change fsSize ≤ 3 * 4096 at hcap
  have hmeta : nmeta = sb.bmapstart + 3 := by decide
  omega

theorem Holds.node_ne (hj : j < ninodes) (hne : j ≠ rootIno) : m.finish.shipped.node j = m.boot.node j := by
  have hroot : rootIno < ninodes := by decide
  unfold Image.shipped
  rw [cold_node, h.disk (.inl (iblock_range hj).2), ← stored_node_ne hroot hne, boot_node _ hj]
  rfl

theorem Holds.length_lt : files.length + 1 < ninodes :=
  h.made.held.number _ (h.used (Nat.succ_ne_zero _) (Nat.lt_succ_self _))

theorem Holds.root_used : m.Used rootIno := h.used (by decide) (Nat.succ_lt_succ (Nat.succ_pos _))

theorem Holds.node_root : m.finish.shipped.node rootIno =
    { m.boot.node rootIno with size := rounded (direntSize * (files.length + 2)) } := by
  have hroot : rootIno < ninodes := by decide
  have hsize := h.made.size rootIno h.root_used
  have hlen := h.length_lt
  have hsmall : rounded (direntSize * (files.length + 2)) < 2 ^ 32 := by
    change (16 * (files.length + 2) / 512 + 1) * 512 < 2 ^ 32
    change files.length + 1 < 200 at hlen
    omega
  rw [length_root] at hsize
  obtain ⟨d, hd⟩ : ∃ d : Dinode, d = { m.dinode rootIno with size := rounded (direntSize * (files.length + 2)) } := ⟨_, rfl⟩
  have hfit : d.Fits := by
    have hold : (m.dinode rootIno).Fits := Dinode.load_fits ..
    rw [hd]
    exact ⟨hold.type, hold.major, hold.minor, hold.nlink, hsmall, hold.addrs, hold.rest⟩
  have hself : (m.stored rootIno d).dinode rootIno = d := by
    rw [← boot_node _ hroot]
    exact stored_node_self hroot hfit
  unfold Image.shipped
  rw [cold_node, h.disk (.inl (iblock_range hroot).2), hsize, ← hd, boot_node m hroot, ← hd]
  exact hself

/-- The kernel finds the same blocks. -/
theorem Holds.same : Same m.Used m.boot m.finish.shipped := by
  have hroot : rootIno < ninodes := by decide
  refine ⟨fun j hj => ?_, fun a ha => ?_⟩
  · by_cases hj' : j = rootIno
    · rw [hj', h.node_root]
    · rw [h.node_ne (h.made.held.number j hj) hj']
  · have hrange := iblock_range hroot
    have hmeta := bmapstart_le
    unfold Image.shipped coldFs Image.boot coldFs
    dsimp only
    rw [h.disk (.inr ha), stored_disk (by omega), blk_disk (.inr ha)]

theorem Holds.addr (hj : m.Used j) (q : Nat) : m.finish.shipped.addr j q = m.boot.addr j q :=
  h.made.held.addr_same h.same hj q

theorem Holds.byte (hj : m.Used j) (k : Nat) : m.finish.shipped.byte j k = (contents files j).getD k 0 :=
  (h.made.held.byte_same h.same hj k).trans (h.made.byte j k hj)

theorem Holds.type (hj : j < ninodes) : (m.finish.shipped.node j).type = (m.dinode j).type := by
  by_cases hj' : j = rootIno
  · rw [hj', h.node_root, boot_node m (hj' ▸ hj)]
  · rw [h.node_ne hj hj', boot_node m hj]

theorem Holds.size (hj : m.Used j) (hne : j ≠ rootIno) : (m.finish.shipped.node j).size = (contents files j).length := by
  have hlt := h.made.held.number j hj
  rw [h.node_ne hlt hne, boot_node m hlt, h.made.size j hj]

theorem Holds.alloc : m.finish.shipped.Alloc j ↔ m.Used j := by
  constructor
  · rintro ⟨hlt, htype⟩
    by_contra hnot
    rw [h.type hlt, h.made.unused j hlt hnot] at htype
    exact htype rfl
  · intro hj
    have hlt := h.made.held.number j hj
    refine ⟨hlt, ?_⟩
    rw [h.type hlt, h.made.type j hj]
    split <;> decide

/-! ### The invariants of the kernel -/

theorem Holds.exact : m.finish.shipped.Exact := by
  have halloc : m.finish.shipped.Alloc = m.Used := funext fun j => propext h.alloc
  have hroom := h.made.room
  have hheld : m.finish.shipped.Held m.Used :=
    h.made.held.same h.same fun b hb => (h.bit hb).trans (boot_bit hb).symm
  refine ⟨halloc ▸ hheld, fun b hb hlt hset => ?_⟩
  rw [h.bit hlt, decide_eq_true_eq] at hset
  obtain ⟨i, p, hi, hp⟩ := h.made.tight b hb hset
  exact ⟨i, p, h.alloc.mpr hi, (h.addr hi p).trans hp⟩

/-- The root directory ends with a hole if its entries fill their last block. -/
theorem Holds.dense_iff : m.finish.shipped.Dense ↔ (files.length + 2) % 32 ≠ 0 := by
  have hroot := h.root_used
  have hsolid := (h.made.solid rootIno hroot).data
  have hsize : (m.finish.shipped.node rootIno).size = rounded (direntSize * (files.length + 2)) := by rw [h.node_root]
  rw [length_root] at hsolid
  constructor
  · intro hdense hmod
    have haddr := hdense rootIno (direntSize * (files.length + 2) / bsize) (h.alloc.mpr hroot) (by
      rw [hsize]
      change 16 * (files.length + 2) / 512 * 512 < (16 * (files.length + 2) / 512 + 1) * 512
      omega)
    rw [h.addr hroot, hsolid] at haddr
    change 16 * (files.length + 2) / 512 * 512 < 16 * (files.length + 2) at haddr
    omega
  · intro hmod i bn hi hbn
    have hi := h.alloc.mp hi
    rw [h.addr hi]
    by_cases hir : i = rootIno
    · subst hir
      rw [hsolid]
      rw [hsize] at hbn
      change bn * 512 < (16 * (files.length + 2) / 512 + 1) * 512 at hbn
      change bn * 512 < 16 * (files.length + 2)
      omega
    · rw [h.size hi hir] at hbn
      exact ((h.made.solid i hi).data bn).mpr hbn

end Finish

/-! ### The root directory -/

theorem getD_flatMap (l : List (Nat × Name)) {k : Nat} (hk : k < l.length) (hj : j < direntSize) :
    (l.flatMap entryBytes).getD (direntSize * k + j) 0 = dirent l[k].1 l[k].2 j := by
  induction l generalizing k with
  | nil => exact absurd hk (Nat.not_lt_zero _)
  | cons e l ih =>
    rw [List.flatMap_cons]
    cases k with
    | zero =>
      rw [Nat.mul_zero, Nat.zero_add, List.getD_append _ _ _ _ (by rwa [length_entryBytes]),
        List.getD_eq_getElem _ _ (by rwa [length_entryBytes])]
      simp only [entryBytes, List.getElem_map, List.getElem_range, List.getElem_cons_zero]
    | succ k =>
      have hlow : direntSize ≤ direntSize * (k + 1) + j := by
        rw [Nat.mul_succ]
        omega
      have hsub : direntSize * (k + 1) + j - direntSize = direntSize * k + j := by
        rw [Nat.mul_succ]
        omega
      rw [List.getD_append_right _ _ _ _ (by rwa [length_entryBytes]), length_entryBytes, hsub]
      exact ih (Nat.lt_of_succ_lt_succ hk)

/-- The number in the bytes of an entry. -/
theorem word_dirent {x : Nat} (hx : x < 2 ^ 16) (name : Name) : word (dirent x name) 0 2 = x := by
  have hdigits : word (dirent x name) 0 2 = word (digits x) 0 2 := word_congr fun k _ hk => if_pos (by omega)
  rw [hdigits, word_digits, pow_zero, Nat.div_one]
  exact Nat.mod_eq_of_lt hx

theorem upto_dirent (x : Nat) (name : Name) : upto dirSiz (fun j => dirent x name (2 + j)) = key name := by
  have hcopy : (fun j => dirent x name (2 + j)) = fun j => (strncpy name.byte dirSiz).getD j 0 := by
    funext j
    unfold dirent
    rw [if_neg (by omega), Nat.add_sub_cancel_left]
  rw [hcopy, upto_strncpy]
  rfl

section Root
variable (h : Holds files m) {s : Fs} (hs : ∀ k, s.byte rootIno k = m.finish.shipped.byte rootIno k)
include h

theorem Holds.listing_lt {e : Nat × Name} (he : e ∈ listing files) : e.1 < ninodes := by
  have hlen := h.length_lt
  have hroot : rootIno < ninodes := by decide
  rcases List.mem_cons.mp he with rfl | he
  · exact hroot
  rcases List.mem_cons.mp he with rfl | he
  · exact hroot
  obtain ⟨k, hk, rfl⟩ := List.mem_mapIdx.mp he
  dsimp only
  omega

omit h in
theorem listing_ne {e : Nat × Name} (he : e ∈ listing files) : e.1 ≠ 0 := by
  rcases List.mem_cons.mp he with rfl | he
  · decide
  rcases List.mem_cons.mp he with rfl | he
  · decide
  obtain ⟨k, hk, rfl⟩ := List.mem_mapIdx.mp he
  exact Nat.succ_ne_zero _

include hs

theorem Holds.root_byte (hk : k < (listing files).length) (hj : j < direntSize) :
    s.byte rootIno (direntSize * k + j) = dirent (listing files)[k].1 (listing files)[k].2 j := by
  rw [hs, h.byte h.root_used, contents_root, getD_flatMap _ hk hj]

theorem Holds.inum (hk : k < (listing files).length) : s.inum rootIno k = (listing files)[k].1 := by
  have hlt := h.listing_lt (List.getElem_mem hk)
  have hsmall : (listing files)[k].1 < 2 ^ 16 := Nat.lt_trans hlt (by decide)
  have hword : word (dirent (listing files)[k].1 (listing files)[k].2) 0 2 = word (s.byte rootIno) (direntSize * k) 2 :=
    word_window fun j hj => (h.root_byte hs hk (Nat.lt_trans hj (by decide))).symm
  exact hword.symm.trans (word_dirent hsmall _)

theorem Holds.title (hk : k < (listing files).length) : s.title rootIno k = key (listing files)[k].2 := by
  rw [← upto_dirent (listing files)[k].1]
  refine upto_congr fun j hj => ?_
  have hin : 2 + j < direntSize := by
    have hsum : 2 + dirSiz = direntSize := rfl
    omega
  rw [Nat.add_assoc]
  exact h.root_byte hs hk hin

end Root

theorem Holds.names (h : Holds files m) : m.finish.shipped.Names := by
  intro i k hi hdir _
  have hu := h.alloc.mp hi
  have hir : i = rootIno := by
    by_contra hne
    rw [h.type hi.1, h.made.type i hu, if_neg hne] at hdir
    cases hdir
  subst hir
  by_cases hk : k < (listing files).length
  · rw [h.inum (fun _ => rfl) hk]
    exact h.listing_lt (List.getElem_mem hk)
  · have hzero : m.finish.shipped.inum rootIno k = 0 := by
      have hword : word (m.finish.shipped.byte rootIno) (direntSize * k) 2 = word (fun _ => 0) (direntSize * k) 2 := by
        refine word_congr fun j hj _ => ?_
        rw [h.byte hu, contents_root]
        refine List.getD_eq_default _ _ ?_
        rw [length_flatMap]
        exact (Nat.mul_le_mul_left _ (Nat.le_of_not_lt hk)).trans hj
      exact hword.trans word_zero
    rw [hzero]
    decide

theorem shipped_cold (m : Image) : m.shipped.Cold := ⟨fun _ => rfl, fun _ => rfl, rfl⟩

end Xv6.Disk.Mkfs
