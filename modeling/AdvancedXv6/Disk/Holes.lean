import AdvancedXv6.Disk.Shipped

/-! Files without holes, from the image of `mkfs` on. -/

namespace Xv6.Disk.Mkfs
open Function Effect Bytes Fs
variable {m : Image} {i n off : Nat} {files : List File} {s t : Fs} {io : Option (List UInt8)}

theorem main_holds (hfits : Fits files) : ∃ m, Holds files m ∧ main files blank = .ok () m.finish := by
  have hrun : wp (main files) blank (fun _ m' => ∃ m, Holds files m ∧ m' = m.finish) fun _ _ => False :=
    wp_main hfits fun m h => ⟨m, h, rfl⟩
  obtain ⟨_, _, hok, m, h, rfl⟩ := exists_ok_of_wp hrun
  exact ⟨m, h, hok⟩

/-- Reading does not change anything. -/
theorem readi_same (hs : s.Sound) (hv : s.valid i = true) (hn : n < 2 ^ 32) :
    wp (readi i off n io) s (fun _ t => t = s) fun _ _ => False := by
  have hsize := hs.size_le (hs.alloc hv)
  have hcap : maxFile * bsize < 2 ^ 32 := by decide
  rw [node_eq hv] at hsize
  refine wp_readi_present hv hn (by omega) (fun _ => rfl) (fun _ => rfl) fun hle _ => ⟨?_, rfl⟩
  refine hs.filled (hs.alloc hv) ?_
  rw [node_eq hv]
  omega

/-- For every list of files that fits, the files in all states that the image can get into have no holes, `readi` changes
nothing and no call writes outside a transaction, if and only if the root directory has no hole in the image: if its
entries do not fill their last block. -/
theorem no_holes_iff (hfits : Fits files) : ∃ m, main files blank = .ok () m ∧
    ((∀ t, Run.Reaches step m.shipped t → t.Dense ∧
      (∀ i off n io, t.valid i = true → n < 2 ^ 32 → wp (readi i off n io) t (fun _ u => u = t) fun _ _ => False) ∧
      ∀ (op : Op) e u, op.enabled t → op.run t = .error e u → e ≠ .outside) ↔ (files.length + 2) % 32 ≠ 0) := by
  obtain ⟨m, h, hok⟩ := main_holds hfits
  refine ⟨m.finish, hok, fun hall => h.dense_iff.mp (hall _ (Run.Reaches.refl _)).1, fun hmod t hr => ?_⟩
  have hsound := (shipped_cold m.finish).sound h.exact (h.dense_iff.mpr hmod) h.names
  have ht := (reaches_sound hsound hr).1
  exact ⟨ht.dense, fun i off n io hv hn => readi_same ht hv hn,
    fun op e u hen hrun => (wp_error (op_sound ht op hen) hrun).2.1⟩

/-- Two empty files. -/
theorem no_holes_iff_two : ∃ m, main [⟨[97], []⟩, ⟨[98], []⟩] blank = .ok () m ∧
    ∀ t, Run.Reaches step m.shipped t → t.Dense := by
  have hfits : Fits [⟨[97], []⟩, ⟨[98], []⟩] := ⟨by decide, by decide, by decide, by decide⟩
  obtain ⟨m, hok, hiff⟩ := no_holes_iff hfits
  exact ⟨m, hok, fun t hr => (hiff.mpr (by decide) t hr).1⟩

/-- A hole that is read outside a transaction. -/
theorem fileread_hole (hv : s.valid i = false) (hd : (s.dinode i).type = tDir) (hsize : (s.dinode i).size = 1024)
    (hz : (s.dinode i).addrs 1 = 0) (hout : s.outstanding = 0) {b : Nat} (hb : b < fsSize) (hbit : s.bit b = false) :
    wp (fileread i 512 16 io) s (fun _ _ => False) fun e _ => e = .outside := by
  have hdir : tDir ≠ 0 ∧ tDir ≠ tDev := by decide
  obtain ⟨t, ht⟩ : ∃ t : Fs, t = { s with ip := update s.ip i (s.dinode i), valid := update s.valid i true } := ⟨_, rfl⟩
  have hip : t.ip i = s.dinode i := by
    rw [ht]
    exact update_self ..
  have hbt : t.bit b = false := by
    rw [ht]
    exact hbit
  have hot : t.outstanding < 1 := by
    rw [ht]
    exact Nat.lt_of_le_of_lt hout.le Nat.one_pos
  unfold fileread ilock
  rw [wp_bind, wp_bind, wp_get, wp_ite]
  refine ⟨fun _ => ?_, fun hnot => absurd hv hnot⟩
  rw [wp_bind, wp_modify, ← ht, wp_ite, hd]
  refine ⟨fun hno => absurd hno hdir.1, fun _ => ?_⟩
  rw [wp_pure]
  unfold readi
  rw [wp_bind, wp_get, hip, wp_ite, hd]
  refine ⟨fun hno => absurd hno hdir.2, fun _ => ?_⟩
  rw [wp_ite, hsize]
  refine ⟨fun hbad => absurd hbad (by decide), fun _ => ?_⟩
  have hlen : (if 1024 < (512 + 16) % 2 ^ 32 then 1024 - 512 else 16) = 15 + 1 := rfl
  rw [wp_bind, hlen, readLoop, wp_ite]
  refine ⟨fun hz => absurd hz (Nat.succ_ne_zero 15), fun _ => ?_⟩
  have hone : 512 / bsize = 1 := rfl
  rw [wp_bind, hone]
  unfold bmap
  rw [wp_ite]
  refine ⟨fun _ => ?_, fun hno => absurd (by decide) hno⟩
  unfold Disk.direct
  rw [wp_bind, wp_get, hip, wp_ite]
  refine ⟨fun _ => ?_, fun hno => absurd hz hno⟩
  unfold Disk.balloc
  rw [wp_bind, wp_bind, wp_get]
  cases hfind : (List.range sb.size).find? fun b => !t.bit b with
  | none =>
    have hset := List.find?_eq_none.mp hfind b (List.mem_range.mpr hb)
    rw [hbt] at hset
    exact absurd rfl hset
  | some c =>
    dsimp only
    unfold logWrite
    rw [wp_bind, wp_bind, wp_get, wp_ite]
    exact ⟨fun _ => (wp_throw _).mpr rfl, fun hno => absurd hot hno⟩

/-- Thirty empty files: the entries of the root directory are as long as a block, and its size is two blocks. -/
theorem hole_panics : ∃ m, Fits (List.replicate 30 ⟨[97], []⟩) ∧ main (List.replicate 30 ⟨[97], []⟩) blank = .ok () m ∧
    ¬m.shipped.Dense ∧ ∃ t, Run.Reaches step m.shipped t ∧ ∃ op : Op, op.enabled t ∧ ∃ u, op.run t = .error .outside u := by
  have hfits : Fits (List.replicate 30 ⟨[97], []⟩) := ⟨by decide, by decide, by decide, by decide⟩
  obtain ⟨m, h, hok⟩ := main_holds hfits
  refine ⟨m.finish, hfits, hok, fun hdense => absurd rfl (h.dense_iff.mp hdense), ?_⟩
  obtain ⟨t, ht, hblk, hvalid, href, hout⟩ : ∃ t, step m.finish.shipped .userinit = some t ∧ t.blk = m.finish.shipped.blk ∧
      t.valid rootIno = false ∧ t.ref rootIno = 1 ∧ t.outstanding = 0 := ⟨_, rfl, rfl, rfl, rfl, rfl⟩
  have hen : (Op.read rootIno 512 16 none).enabled t := by
    intro i hi
    obtain rfl := Option.some.inj hi
    exact href.ge
  have hnode : t.dinode rootIno = m.finish.shipped.node rootIno := by
    unfold Fs.dinode
    rw [hblk]
    rfl
  have hused := h.root_used
  have htype := h.type (j := rootIno) (by decide)
  have hsolid := (h.made.solid rootIno hused).data 1
  have haddr : (m.finish.shipped.node rootIno).addrs 1 = 0 := by
    have hzero : m.boot.addr rootIno (place 1) = 0 := by
      by_contra h0
      have hlt := hsolid.mp h0
      rw [length_root] at hlt
      exact absurd hlt (by decide)
    rw [← h.addr hused] at hzero
    exact hzero
  have hcount : m.freeblock < fsSize := by
    rw [h.count]
    decide
  have hbit : t.bit m.freeblock = false := by
    unfold Fs.bit
    rw [hblk]
    exact (h.bit hcount).trans (decide_eq_false (Nat.lt_irrefl _))
  have hrun : wp (Op.run (.read rootIno 512 16 none)) t (fun _ _ => False) fun e _ => e = .outside := by
    unfold Op.run
    rw [wp_map]
    refine fileread_hole hvalid ?_ ?_ (hnode ▸ haddr) hout hcount hbit
    · rw [hnode, htype, h.made.type rootIno hused, if_pos rfl]
    · rw [hnode, h.node_root]
      rfl
  refine ⟨t, (Run.Reaches.refl _).next ht, _, hen, ?_⟩
  cases hop : Op.run (.read rootIno 512 16 none) t with
  | ok r u => exact (wp_ok hrun hop).elim
  | error e u =>
    obtain rfl := wp_error hrun hop
    exact ⟨u, rfl⟩

end Xv6.Disk.Mkfs
