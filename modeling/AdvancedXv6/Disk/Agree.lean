import AdvancedXv6.Disk.Holes

/-! The kernel reads from the image what `mkfs` has written into it. -/

namespace Xv6.Disk
open Function Effect Bytes Fs

/-- `readsb` -/
def Super.load (b : Block) : Super where
  size := word b 0 4
  nblocks := word b 4 4
  ninodes := word b 8 4
  nlog := word b 12 4
  logstart := word b 16 4
  inodestart := word b 20 4
  bmapstart := word b 24 4
  swapstart := word b 28 4
  swapsize := word b 32 4

/-- The first block and the length of each region: boot, super block, swap, log, inodes, map and data. -/
def Super.regions (s : Super) : List (Nat × Nat) :=
  [(0, 1), (1, 1), (s.swapstart, s.swapsize), (s.logstart, s.nlog), (s.inodestart, s.ninodes / ipb + 1),
    (s.bmapstart, s.size / bpb + 1), (s.size - s.nblocks, s.nblocks)]

/-- Two regions share no block. -/
def Apart (a b : Nat × Nat) : Prop := a.1 + a.2 ≤ b.1 ∨ b.1 + b.2 ≤ a.1

instance (a b : Nat × Nat) : Decidable (Apart a b) := inferInstanceAs (Decidable (_ ∨ _))

/-- The file with the name in the root directory, up to `n` bytes. -/
def readFile (name : Name) (n : Nat) : M (Option (List UInt8)) := do
  iget rootIno
  ilock rootIno
  match ← dirlookup rootIno name with
  | none => return none
  | some (ip, _) =>
    ilock ip
    readi ip 0 n none

namespace Mkfs
variable {m : Image} {i j k n off : Nat} {files : List File} {name : Name} {s t : Fs} {E : Panic → Fs → Prop}

theorem Holds.readsb (h : Holds files m) : Super.load (m.finish.disk 1) = sb := by
  have hone : 1 ≠ iblock rootIno := by decide
  have hdisk : m.finish.disk 1 = m.disk 1 := by rw [h.disk (.inl (by decide)), stored_disk hone]
  have hword : ∀ o, o + 4 ≤ 36 → word (m.finish.disk 1) o 4 = word (superBytes sb) o 4 := by
    intro o ho
    rw [hdisk]
    exact word_congr fun k _ hk => h.made.super k (Nat.lt_of_lt_of_le hk ho)
  unfold Super.load
  rw [hword 0 (by decide), hword 4 (by decide), hword 8 (by decide), hword 12 (by decide), hword 16 (by decide),
    hword 20 (by decide), hword 24 (by decide), hword 28 (by decide), hword 32 (by decide)]
  rfl

/-- The kernel has only read. -/
structure Warm (s₀ s : Fs) : Prop where
  blk : s.blk = s₀.blk
  ip : ∀ i, s.valid i = true → s.ip i = s₀.dinode i

namespace Warm
variable {s₀ : Fs} (h : Warm s₀ s)
include h

theorem node (i : Nat) : s.node i = s₀.dinode i := by
  unfold Fs.node
  split
  · exact h.ip i ‹_›
  · unfold Fs.dinode
    rw [h.blk]

theorem iget {Q : Unit → Fs → Prop} (hQ : ∀ t, Warm s₀ t → (∀ j, j ≠ i → t.valid j = s.valid j) → Q () t) :
    wp (Disk.iget i) s Q E := by
  unfold Disk.iget
  rw [wp_modify]
  refine hQ _ ⟨h.blk, fun j hj => h.ip j ?_⟩ fun j hj => ?_
  · dsimp only at hj
    split at hj
    · by_cases hji : j = i
      · rw [hji, update_self] at hj
        cases hj
      · rwa [update_of_ne hji] at hj
    · exact hj
  · dsimp only
    split
    · rw [update_of_ne hj]
    · rfl

theorem ilock {Q : Unit → Fs → Prop} (htype : (s₀.dinode i).type ≠ 0)
    (hQ : ∀ t, Warm s₀ t → t.valid i = true → Q () t) : wp (Disk.ilock i) s Q E := by
  unfold Disk.ilock
  rw [wp_bind, wp_get, wp_ite]
  have hdinode : s.dinode i = s₀.dinode i := by
    unfold Fs.dinode
    rw [h.blk]
  refine ⟨fun _ => ?_, fun hv => (wp_pure _).mpr (hQ s h (by simpa using hv))⟩
  rw [wp_bind, wp_modify, wp_ite, hdinode]
  refine ⟨fun hz => absurd hz htype, fun _ => (wp_pure _).mpr (hQ _ ⟨h.blk, fun j hj => ?_⟩ (update_self ..))⟩
  by_cases hji : j = i
  · rw [hji]
    exact update_self ..
  · dsimp only at hj ⊢
    rw [update_of_ne hji] at hj ⊢
    exact h.ip j hj

end Warm

section Lookup
variable (h : Holds files m) (hw : Warm m.finish.shipped s)
include h hw

theorem Holds.warm_addr (hi : m.Used i) (q : Nat) : s.addr i q = m.boot.addr i q := by
  rw [← h.addr hi]
  unfold Fs.addr
  rw [hw.node, hw.blk]
  rfl

theorem Holds.warm_byte (hi : m.Used i) (k : Nat) : s.byte i k = (contents files i).getD k 0 := by
  rw [← h.byte hi]
  unfold Fs.byte
  rw [h.warm_addr hw hi, h.addr hi, hw.blk]

theorem Holds.warm_filled (hi : m.Used i) (hn : off + n ≤ (contents files i).length) : s.Filled i off n := by
  intro k _ hk
  rw [h.warm_addr hw hi, (h.made.solid i hi).data]
  change k / 512 * 512 < (contents files i).length
  omega

theorem Holds.warm_root (hv : s.valid rootIno = true) : (s.ip rootIno).type = tDir ∧
    direntSize * (files.length + 2) ≤ (s.ip rootIno).size ∧ (s.ip rootIno).size < 2 ^ 32 := by
  have hlen := h.length_lt
  have hip : s.ip rootIno = m.finish.shipped.node rootIno := hw.ip rootIno hv
  have hsize : (s.ip rootIno).size = rounded (direntSize * (files.length + 2)) := by rw [hip, h.node_root]
  refine ⟨by rw [hip, h.type (by decide), h.made.type rootIno h.root_used, if_pos rfl], ?_⟩
  rw [hsize]
  change files.length + 1 < 200 at hlen
  change 16 * (files.length + 2) ≤ (16 * (files.length + 2) / 512 + 1) * 512 ∧
    (16 * (files.length + 2) / 512 + 1) * 512 < 2 ^ 32
  omega

/-- An entry of the root directory. -/
theorem Holds.readDirent {Q : (Nat → UInt8) → Fs → Prop} {e : Panic} (hv : s.valid rootIno = true)
    (hj : j < (listing files).length)
    (hQ : ∀ de, (∀ k, k < direntSize → de k = s.byte rootIno (direntSize * j + k)) → Q de s) :
    wp (readDirent rootIno (direntSize * j) e) s Q E := by
  have hused := h.root_used
  have hroot := length_root files
  obtain ⟨htype, hin⟩ := h.warm_root hw hv
  rw [length_listing] at hj
  have hend : direntSize * j + direntSize ≤ direntSize * (files.length + 2) := by
    rw [← Nat.mul_succ]
    exact Nat.mul_le_mul_left _ hj
  have hd : direntSize = 16 := rfl
  have hmin : min direntSize ((s.ip rootIno).size - direntSize * j) = direntSize := by omega
  unfold Disk.readDirent
  rw [wp_bind]
  refine wp_readi_present hv (by decide) hin.2 (fun hdev => ?_) (fun hno => absurd (by omega) hno) fun hle hsum => ?_
  · rw [htype] at hdev
    cases hdev
  · rw [hmin]
    refine ⟨h.warm_filled hw hused (hroot ▸ hend), ?_⟩
    dsimp only
    rw [List.length_map, List.length_range, wp_ite]
    refine ⟨fun hne => absurd rfl hne, fun _ => (wp_pure _).mpr (hQ _ fun k hk => ?_)⟩
    rw [List.getD_eq_getElem _ _ (by rwa [List.length_map, List.length_range]), List.getElem_map, List.getElem_range]

/-- The first entry with the name is found. -/
theorem Holds.dirlookupLoop {Q : Option (Nat × Nat) → Fs → Prop} (hv : s.valid rootIno = true) (hk : k < (listing files).length)
    (hbefore : ∀ j (hj : j < (listing files).length), j < k → key (listing files)[j].2 ≠ key name)
    (hat : key (listing files)[k].2 = key name) (rounds : Nat) (hj : j ≤ k) (hr : k < j + rounds)
    (hQ : ∀ t, Warm m.finish.shipped t → Q (some ((listing files)[k].1, direntSize * k)) t) :
    wp (dirlookupLoop rootIno name rounds (direntSize * j)) s Q E := by
  have hbyte : ∀ k, s.byte rootIno k = m.finish.shipped.byte rootIno k := by
    intro k
    rw [h.warm_byte hw h.root_used, h.byte h.root_used]
  induction rounds generalizing j with
  | zero => exact absurd hr (Nat.not_lt_of_le hj)
  | succ rounds ih =>
    have hjl : j < (listing files).length := Nat.lt_of_le_of_lt hj hk
    have hsize : direntSize * j < (s.ip rootIno).size := by
      have hlow := (h.warm_root hw hv).2.1
      rw [length_listing] at hjl
      exact Nat.lt_of_lt_of_le (Nat.mul_lt_mul_of_pos_left hjl (by decide)) hlow
    rw [Disk.dirlookupLoop, wp_bind, wp_get, wp_ite]
    refine ⟨fun hend => absurd hsize (Nat.not_lt_of_le hend), fun _ => ?_⟩
    rw [wp_bind]
    refine h.readDirent hw hv hjl fun de hde => ?_
    rw [wp_ite, read_title hde, read_inum hde, h.title hbyte hjl, h.inum hbyte hjl]
    refine ⟨fun hfound => ?_, fun hmiss => ?_⟩
    · have hjk : j = k := by
        by_contra hne
        exact hbefore j hjl (by omega) hfound.2
      subst hjk
      rw [wp_bind]
      exact hw.iget fun t ht _ => (wp_pure _).mpr (hQ t ht)
    · have hjk : j ≠ k := by
        rintro rfl
        exact hmiss ⟨listing_ne (List.getElem_mem hjl), hat⟩
      exact ih (j := j + 1) (by omega) (by omega)

theorem Holds.dirlookup {Q : Option (Nat × Nat) → Fs → Prop} (hv : s.valid rootIno = true) (hk : k < (listing files).length)
    (hbefore : ∀ j (hj : j < (listing files).length), j < k → key (listing files)[j].2 ≠ key name)
    (hat : key (listing files)[k].2 = key name)
    (hQ : ∀ t, Warm m.finish.shipped t → Q (some ((listing files)[k].1, direntSize * k)) t) :
    wp (dirlookup rootIno name) s Q E := by
  have hroot := h.warm_root hw hv
  have hrounds : k < 0 + (s.ip rootIno).size := by
    rw [length_listing] at hk
    rw [Nat.zero_add]
    exact Nat.lt_of_lt_of_le hk ((Nat.le_mul_of_pos_left _ (by decide)).trans hroot.2.1)
  unfold Disk.dirlookup
  rw [wp_bind, wp_get]
  dsimp only
  rw [wp_ite]
  refine ⟨fun hno => absurd hroot.1 hno, fun _ => ?_⟩
  exact h.dirlookupLoop hw hv hk hbefore hat _ (Nat.zero_le k) hrounds hQ

end Lookup

theorem getElem_listing (hk : k < files.length) (hl : k + 2 < (listing files).length) :
    (listing files)[k + 2] = (k + 2, files[k].stored) := by
  simp only [listing, List.getElem_cons_succ, List.getElem_mapIdx]

theorem contents_file (hk : k < files.length) : contents files (k + 2) = files[k].bytes := by
  have hne : k + 2 ≠ rootIno := Nat.ne_of_gt (Nat.succ_lt_succ (Nat.succ_pos k))
  rw [contents, if_neg hne, if_pos (Nat.le_add_left ..), Nat.add_sub_cancel, List.getElem?_eq_getElem hk]
  rfl

/-- A file whose name is new is found, and read to its end. -/
theorem Holds.readFile (h : Holds files m) (hk : k < files.length)
    (hbefore : ∀ j (hj : j < files.length), j < k → key files[j].stored ≠ key name)
    (hdots : key dot ≠ key name ∧ key dotdot ≠ key name) (hat : key files[k].stored = key name)
    (hlen : files[k].bytes.length ≤ n) (hn : n < 2 ^ 32) :
    wp (readFile name n) m.finish.shipped (fun r _ => r = some files[k].bytes) fun _ _ => False := by
  have hl : k + 2 < (listing files).length := by
    rw [length_listing]
    omega
  have hroot : rootIno < ninodes := by decide
  have hused : m.Used (k + 2) := h.used (Nat.succ_ne_zero _) (by omega)
  have hnum := h.made.held.number _ hused
  have hne : k + 2 ≠ rootIno := Nat.ne_of_gt (Nat.succ_lt_succ (Nat.succ_pos k))
  have hnode : ∀ i, m.finish.shipped.dinode i = m.finish.shipped.node i := fun _ => rfl
  have hcold : Warm m.finish.shipped m.finish.shipped := ⟨rfl, fun i hv => absurd hv Bool.false_ne_true⟩
  have hbefore' : ∀ j (hj : j < (listing files).length), j < k + 2 → key (listing files)[j].2 ≠ key name := by
    intro j hj hlt
    cases j with
    | zero => exact hdots.1
    | succ j =>
      cases j with
      | zero => exact hdots.2
      | succ j =>
        have hjf : j < files.length := by omega
        rw [getElem_listing hjf]
        exact hbefore j hjf (by omega)
  have htype : (m.finish.shipped.node (k + 2)).type = tFile := by rw [h.type hnum, h.made.type _ hused, if_neg hne]
  unfold Disk.readFile
  rw [wp_bind]
  refine hcold.iget fun s hs _ => ?_
  rw [wp_bind]
  refine hs.ilock ?_ fun t ht hv => ?_
  · rw [hnode, h.type hroot, h.made.type _ h.root_used, if_pos rfl]
    decide
  rw [wp_bind]
  refine h.dirlookup ht hv hl hbefore' (by rw [getElem_listing hk]; exact hat) fun u hu => ?_
  rw [getElem_listing hk]
  dsimp only
  rw [wp_bind]
  refine hu.ilock (by rw [hnode, htype]; decide) fun w hw hv' => ?_
  have hip : w.ip (k + 2) = m.finish.shipped.node (k + 2) := hw.ip _ hv'
  have hsize : (w.ip (k + 2)).size = files[k].bytes.length := by rw [hip, h.size hused hne, contents_file hk]
  have hmin : min n ((w.ip (k + 2)).size - 0) = files[k].bytes.length := by omega
  refine wp_readi_present hv' hn (by omega) (fun hdev => ?_) (fun hno => absurd ⟨Nat.zero_le _, by omega⟩ hno) fun _ _ => ?_
  · rw [hip, htype] at hdev
    cases hdev
  · rw [hmin]
    refine ⟨h.warm_filled hw hused (by rw [contents_file hk, Nat.zero_add]), congrArg some ?_⟩
    have hmap : (fun k' => w.byte (k + 2) (0 + k')) = fun k' => files[k].bytes.getD k' 0 := by
      funext k'
      rw [h.warm_byte hw hused, contents_file hk, Nat.zero_add]
    rw [hmap, range_getD]

/-- For every list of files that fits, the kernel reads the super block that was meant; its regions are apart and in
range, and have room for the inodes and the map; the bits of the map tell the allocated blocks from the others; and a
file is found by its name and read to its end, unless it is called as an entry before it. -/
theorem image_agrees (hfits : Fits files) : ∃ m, main files blank = .ok () m ∧
    Super.load (m.disk 1) = sb ∧
    (sb.regions.Pairwise Apart ∧ ∀ r ∈ sb.regions, r.1 + r.2 ≤ sb.size) ∧
    ((∀ i < sb.ninodes, sb.inodestart ≤ iblock i ∧ iblock i < sb.bmapstart) ∧
      ∀ b < sb.size, sb.bmapstart ≤ bblock b ∧ bblock b < sb.size - sb.nblocks) ∧
    (∀ b < sb.size, m.shipped.bit b = decide (b < m.freeblock)) ∧
    ∀ k (hk : k < files.length) name, key name = key files[k].stored →
      (∀ j (hj : j < files.length), j < k → key files[j].stored ≠ key name) →
      key dot ≠ key name ∧ key dotdot ≠ key name →
      ∀ n, files[k].bytes.length ≤ n → n < 2 ^ 32 →
        wp (readFile name n) m.shipped (fun r _ => r = some files[k].bytes) fun _ _ => False := by
  obtain ⟨m, h, hok⟩ := main_holds hfits
  refine ⟨m.finish, hok, h.readsb, ⟨by decide, by decide⟩, ⟨fun i hi => iblock_range hi, fun b hb => bblock_range hb⟩,
    fun b hb => h.bit hb, ?_⟩
  intro k hk name hat hbefore hdots n hlen hn
  exact h.readFile hk hbefore hdots hat.symm hlen hn

/-- A file of two bytes, in two pieces, and an empty file. -/
theorem image_agrees_two : ∃ m, main [⟨[95, 97], [[1], [2]]⟩, ⟨[98], []⟩] blank = .ok () m ∧
    wp (readFile [97] 512) m.shipped (fun r _ => r = some [1, 2]) fun _ _ => False := by
  have hfits : Fits [⟨[95, 97], [[1], [2]]⟩, ⟨[98], []⟩] := ⟨by decide, by decide, by decide, by decide⟩
  obtain ⟨m, hok, _, _, _, _, hread⟩ := image_agrees hfits
  refine ⟨m, hok, hread 0 (by decide) [97] (by decide) (fun j _ hlt => absurd hlt (Nat.not_lt_zero j))
    ⟨by decide, by decide⟩ 512 (by decide) (by decide)⟩

/-- The second file that is called `a` cannot be found. -/
theorem second_hidden : ∃ m, Fits [⟨[97], [[1]]⟩, ⟨[95, 97], [[2]]⟩] ∧
    main [⟨[97], [[1]]⟩, ⟨[95, 97], [[2]]⟩] blank = .ok () m ∧
    ¬wp (readFile (File.stored ⟨[95, 97], [[2]]⟩) 1) m.shipped (fun r _ => r = some (File.bytes ⟨[95, 97], [[2]]⟩))
      fun _ _ => False := by
  have hfits : Fits [⟨[97], [[1]]⟩, ⟨[95, 97], [[2]]⟩] := ⟨by decide, by decide, by decide, by decide⟩
  obtain ⟨m, h, hok⟩ := main_holds hfits
  refine ⟨m.finish, hfits, hok, fun hsecond => ?_⟩
  have hfirst : wp (readFile [97] 1) m.finish.shipped (fun r _ => r = some [1]) fun _ _ => False :=
    h.readFile (k := 0) (by decide) (fun j _ hlt => absurd hlt (Nat.not_lt_zero j)) ⟨by decide, by decide⟩ (by decide)
      (by decide) (by decide)
  obtain ⟨r, t, hrun, hone⟩ := exists_ok_of_wp hfirst
  have htwo := wp_ok hsecond hrun
  rw [hone] at htwo
  exact absurd (Option.some.inj htwo) (by decide)

end Mkfs
end Xv6.Disk
