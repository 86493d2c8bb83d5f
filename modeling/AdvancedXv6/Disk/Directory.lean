import AdvancedXv6.Disk.Names
import AdvancedXv6.Disk.Reserve

/-! What `dirlink` and `sys_unlink` do to the entries of a directory. -/

namespace Xv6.Disk
open Function Effect Bytes Fs
variable {H K L : List Nat} {o : Nat} {s s₀ t u : Fs} {i j dp n k : Nat} {name : Name} {x : List UInt8}
  {E : Panic → Fs → Prop} {src : Nat → UInt8} {f : Dinode → Dinode}

/-! ### What does not touch a directory -/

theorem Fs.Changes.leaves (h : Changes i f s t) (hs : s.Sound)
    (hf : ∀ d, (f d).type = d.type ∧ (f d).size = d.size ∧ (f d).addrs = d.addrs) (hj : s.Alloc j) : Leaves j s t := by
  have hfields := h.fields hf
  exact ⟨(hfields j).1, (hfields j).2.1, hs.exact.held.byte_same ⟨fun j _ => (hfields j).2.2, h.blk⟩ hj⟩

/-- An inode that the call has another reference to keeps its content. -/
theorem iput_leaves (h : s.Good (i :: H)) (hout : 1 ≤ s.outstanding) (hj : j ∈ H) (hsj : s.Alloc j) :
    wp (iput i) s (fun _ t => Leaves j s t) E := by
  unfold iput
  rw [wp_bind, wp_get, wp_ite]
  refine ⟨fun hlast => ?_, fun _ => (wp_modify _).mpr ⟨rfl, rfl, fun _ => rfl⟩⟩
  obtain ⟨hv, -, href⟩ := hlast
  have hji : j ≠ i := by
    rintro rfl
    have howned := h.owned j
    have hpos := List.count_pos_iff.mpr hj
    rw [List.count_cons_self, href] at howned
    omega
  rw [wp_bind]
  apply wp_itrunc h.exact.held (h.alloc hv) hv hout (h.ip_fits hv)
  intro t ht
  unfold setIp
  rw [wp_bind, wp_modify, wp_bind]
  refine wp_iupdate (s := t.setIp i _) (ht.outstanding ▸ hout) ?_
  rw [wp_bind, wp_modify, wp_modify]
  have hip : ∀ j, j ≠ i → update t.ip i { t.ip i with type := 0 } j = s.ip j := by
    intro j hj
    rw [update_of_ne hj, ht.ip j hj]
  have hlast : ∀ u : Fs, u.blk = ((t.setIp i fun d => { d with type := 0 }).updated i).blk →
      u.valid = update s.valid i false → u.ip = update t.ip i { t.ip i with type := 0 } → Leaves j s u := by
    intro u hblk hvalid hu
    have hip' : ∀ j, j ≠ i → u.ip j = s.ip j := fun j hj => by rw [hu, hip j hj]
    have hnode : u.node j = s.node j := ht.freed_node hblk hvalid hip' hsj.1 hji
    exact ⟨by rw [hnode], by rw [hnode], ht.freed_byte hblk hvalid hip' h.toSound (h.alloc hv) hsj hji⟩
  have hvalid : update t.valid i false = update s.valid i false := by rw [ht.valid]
  exact hlast _ rfl hvalid rfl

/-! ### Writing an entry -/

/-- Entry `k` of the directory now has the bytes `src`. -/
structure Enters (dp k : Nat) (src : Nat → UInt8) (s t : Fs) : Prop where
  type : (t.node dp).type = (s.node dp).type
  size : (t.node dp).size = max (s.node dp).size (direntSize * k + direntSize)
  byte : ∀ j, t.byte dp j =
    if direntSize * k ≤ j ∧ j < direntSize * k + direntSize then src (j - direntSize * k) else s.byte dp j

namespace Enters
variable (h : Enters dp k src s t)
include h

theorem after (hs : Leaves dp s₀ s) : Enters dp k src s₀ t :=
  ⟨h.type.trans hs.type, by rw [h.size, hs.size], fun j => (h.byte j).trans (if_congr Iff.rfl rfl (hs.byte j))⟩

theorem leaves (hu : Leaves dp t u) : Enters dp k src s u :=
  ⟨hu.type.trans h.type, hu.size.trans h.size, fun j => (hu.byte j).trans (h.byte j)⟩

theorem inum_self : t.inum dp k = word src 0 2 := by
  refine (word_window fun m hm => ?_).symm
  rw [h.byte, if_pos ⟨Nat.le_add_right .., Nat.add_lt_add_left (Nat.lt_trans hm (by decide)) _⟩, Nat.add_sub_cancel_left]

theorem title_self : t.title dp k = upto dirSiz fun j => src (j + 2) := by
  refine upto_congr fun m hm => ?_
  have hsum : dirSiz + 2 = direntSize := rfl
  rw [h.byte, if_pos ⟨by omega, by omega⟩]
  exact congrArg src (by omega)

/-- Other entries do not have these bytes. -/
theorem byte_other (hj : j ≠ k) (hn : n < direntSize) : t.byte dp (direntSize * j + n) = s.byte dp (direntSize * j + n) := by
  change n < 16 at hn
  rw [h.byte]
  refine if_neg fun hand => hj ?_
  change 16 * k ≤ 16 * j + n ∧ 16 * j + n < 16 * k + 16 at hand
  omega

theorem inum_other (hj : j ≠ k) : t.inum dp j = s.inum dp j := by
  refine word_congr fun m hlow hhigh => ?_
  obtain ⟨m, rfl⟩ := Nat.exists_eq_add_of_le hlow
  exact h.byte_other hj (Nat.lt_trans (Nat.lt_of_add_lt_add_left hhigh) (by decide))

theorem title_other (hj : j ≠ k) : t.title dp j = s.title dp j := by
  refine upto_congr fun m hm => ?_
  have hsum : dirSiz + 2 = direntSize := rfl
  rw [Nat.add_assoc]
  exact h.byte_other hj (by omega)

theorem entries (hwhole : (s.node dp).size % direntSize = 0) : t.entries dp = max (s.entries dp) (k + 1) := by
  rw [Fs.entries, h.size, Fs.entries]
  change (s.node dp).size % 16 = 0 at hwhole
  change max _ (16 * k + 16) / 16 = max (_ / 16) _
  omega

theorem whole (hwhole : (s.node dp).size % direntSize = 0) : (t.node dp).size % direntSize = 0 := by
  rw [h.size]
  change (s.node dp).size % 16 = 0 at hwhole
  change max _ (16 * k + 16) % 16 = 0
  omega

end Enters

/-- The disk is full, or the directory is as large as a file can be. -/
def Exhausted (dp : Nat) (s : Fs) (e : Panic) (t : Fs) : Prop :=
  e = .balloc ∧ t.Full ∨ e = .dirlink ∧ direntSize * s.entries dp = maxFile * bsize

section Write
variable (h : s.Busy o L H) (hdp : dp ∈ L) (hdir : (s.node dp).type = tDir)
  (hwhole : (s.node dp).size % direntSize = 0)
include h hdp hdir hwhole

theorem wp_enter (hk : k ≤ s.entries dp) (hnum : word src 0 2 < ninodes) :
    wp (writei dp src (direntSize * k) direntSize false) s (fun r t => t.Busy o L H ∧
        (r = true → Enters dp k src s t) ∧ (r = false → k = s.entries dp ∧ direntSize * k = maxFile * bsize))
      fun e t => e = .balloc ∧ t.Full := by
  have hv := h.valid hdp
  have hmax := size_lt h hdp
  have hcap : maxFile * bsize = 71680 := rfl
  have hsize : direntSize * s.entries dp = (s.ip dp).size := by
    rw [← node_eq hv]
    exact Nat.mul_div_cancel' (Nat.dvd_of_mod_eq_zero hwhole)
  have hle : direntSize * k ≤ (s.ip dp).size := hsize ▸ Nat.mul_le_mul_left direntSize hk
  have hdir' : (s.ip dp).type = tDir := by rw [← node_eq hv, hdir]
  have hentry : Entry (s.ip dp).type src (direntSize * k) direntSize := fun _ => ⟨Nat.mul_mod_right .., rfl, hnum⟩
  have hwrite : wp (writei dp src (direntSize * k) direntSize false) s (fun r t =>
      (r = true → Enters dp k src s t) ∧ (r = false → k = s.entries dp ∧ direntSize * k = maxFile * bsize))
      fun e t => e = .balloc ∧ t.Full := by
    refine wp_writei (I := s.Alloc) (fun t ht => ⟨rfl, ht⟩) h.exact.held h.open_op (h.alloc hv) hv (by rw [hdir']; decide)
      (by omega) (by decide) (h.ip_fits hv) (fun hno => ⟨fun hr => (by cases hr), fun _ => ?_⟩) fun _ t ht =>
        ⟨fun _ => ⟨?_, ?_, fun j => ?_⟩, fun hr => (by cases hr)⟩
    · have hlen : direntSize = 16 := rfl
      unfold Accepts at hno
      rw [hlen] at hno hle hsize ⊢
      have hmod : 71680 % 16 = 0 := rfl
      omega
    · rw [ht.self]
    · rw [ht.self]
    · rw [ht.puts dp j (h.alloc hv)]
      exact if_congr (and_iff_right rfl) rfl rfl
  refine wp_mono (wp_and (busy_writei h hdp (by omega) (by decide) hentry) hwrite) (fun r t ht => ht) fun e t he => he.2

/-- `dirlink` refuses a name that it finds, and writes the first entry that is not in use otherwise. -/
theorem dirlink_enters {inum : Nat} (hi : inum < ninodes) : wp (dirlink dp name inum) s (fun r t => t.Busy o L H ∧
      (s.entryOf dp (key name) ≠ none → r = false ∧ Leaves dp s t) ∧
      (s.entryOf dp (key name) = none → r = true ∧ Enters dp (s.hole dp) (dirent inum name) s t))
    (Exhausted dp s) := by
  have hv := h.valid hdp
  unfold dirlink
  refine wp_seq (wp_mono (dirlookup_entryOf h hdp hdir hwhole) (fun _ _ ht => ht) fun _ _ he => he.elim) fun r t ht => ?_
  obtain ⟨hr, hfound, -, hleaves⟩ := ht
  cases hx : s.entryOf dp (key name) with
  | some k =>
    rw [hx, Option.map_some] at hr
    subst hr
    dsimp only
    have hgood : t.Good (s.inum dp k :: H) := hfound.1.toGood
    have hput := wp_and (iput_logged (E := fun _ _ => False) hfound.1 (List.Perm.refl _)
      fun j hj => ⟨hj, (h.locked j hj).1⟩) (iput_leaves (E := fun _ _ => False) hgood hfound.1.open_op (h.locked dp hdp).1
        (hfound.1.alloc (hfound.1.valid hdp)))
    refine wp_seq (wp_mono hput (fun _ _ hu => hu) fun _ _ he => he.1.elim) fun _ u hu => ?_
    rw [wp_pure]
    exact ⟨hu.1.1, fun _ => ⟨rfl, hleaves.trans hu.2⟩, fun hnone => absurd hnone (Option.some_ne_none k)⟩
  | none =>
    rw [hx, Option.map_none] at hr
    subst hr
    dsimp only
    obtain ⟨ht, -⟩ := hfound
    have hdirt : (t.node dp).type = tDir := hleaves.type.trans hdir
    have hwholet : (t.node dp).size % direntSize = 0 := by rw [hleaves.size, hwhole]
    have hsame : t.hole dp = s.hole dp := by
      have hvacant : t.vacant dp = s.vacant dp := funext fun k => by rw [vacant, hleaves.inum]; rfl
      rw [hole, hleaves.entries, hvacant]
      rfl
    have hrounds : t.entries dp ≤ 0 + (t.ip dp).size := by
      rw [Nat.zero_add, Fs.entries, node_eq (ht.valid hdp)]
      exact Nat.div_le_self _ _
    have hle : t.hole dp ≤ t.entries dp := by
      rw [hole]
      cases hfind : (List.range (t.entries dp)).find? (t.vacant dp) with
      | none => exact Nat.le_refl _
      | some k => exact (List.mem_range.mp (List.mem_of_find?_eq_some hfind)).le
    rw [wp_bind, wp_get, wp_bind]
    refine wp_freeDirent_hole ht hdp hdirt hwholet _ hrounds ?_
    have hat : direntSize * ((List.range' 0 (t.entries dp - 0)).find? (t.vacant dp)).getD (max 0 (t.entries dp)) =
        direntSize * t.hole dp := by
      rw [Nat.sub_zero, ← List.range_eq_range', Nat.zero_max]
      rfl
    rw [hat]
    have hword : word (dirent inum name) 0 2 < ninodes := by
      rw [dirent_inum hi]
      exact hi
    refine wp_seq (wp_mono (wp_enter ht hdp hdirt hwholet hle hword) (fun _ _ hu => hu) fun _ _ he => .inl he)
      fun r u hu => ?_
    obtain ⟨hbusy, hyes, hno⟩ := hu
    cases r with
    | false =>
      obtain ⟨hend, hfull⟩ := hno rfl
      refine (wp_throw _).mpr (.inr ⟨rfl, ?_⟩)
      rw [← hleaves.entries, ← hend, hfull]
    | true =>
      refine (wp_pure _).mpr ⟨hbusy, fun hne => absurd rfl hne, fun _ => ⟨rfl, ?_⟩⟩
      have henters := hyes rfl
      rw [hsame] at henters
      exact henters.after hleaves

end Write

/-! ### Removing an entry -/

/-- `sys_unlink` from its test of the name until the entry is cleared: the inode that has been removed, locked. -/
def removeEntry (dp : Nat) (name : Name) : M (Option Nat) := do
  if namecmp name.byte dot.byte = 0 ∨ namecmp name.byte dotdot.byte = 0 then return none
  match ← dirlookup dp name with
  | none => return none
  | some (ip, off) =>
    ilock ip
    if !(← removable ip) then
      iput ip
      return none
    eraseEntry dp ip off
    return some ip

theorem sysUnlink_removeEntry (cwd : Nat) (path : Name) : sysUnlink cwd path = inOp do
    match ← nameiparent cwd path with
    | none => return false
    | some (dp, name) =>
      ilock dp
      match ← removeEntry dp name with
      | none =>
        iput dp
        return false
      | some ip =>
        iput dp
        change ip dropLink
        iput ip
        return true := by
  unfold sysUnlink removeEntry
  refine congrArg inOp (bind_congr fun r => ?_)
  cases r with
  | none => rfl
  | some r =>
    obtain ⟨dp, name⟩ := r
    refine bind_congr fun _ => ?_
    split
    · rw [pure_bind]
    · rw [bind_assoc]
      refine bind_congr fun r => ?_
      cases r with
      | none => rw [pure_bind]
      | some r =>
        dsimp only
        rw [bind_assoc]
        refine bind_congr fun _ => ?_
        rw [bind_assoc]
        refine bind_congr fun ok => ?_
        split
        · rw [bind_assoc]
          refine bind_congr fun _ => ?_
          rw [pure_bind]
        · rw [bind_assoc]
          refine bind_congr fun _ => ?_
          rw [pure_bind]

theorem eraseEntry_enters {ip : Nat} (h : s.Busy o L H) (hdp : dp ∈ L) (hdir : (s.node dp).type = tDir)
    (hwhole : (s.node dp).size % direntSize = 0) (hk : k < s.entries dp) :
    wp (eraseEntry dp ip (direntSize * k)) s (fun _ t => t.Busy o L H ∧ Enters dp k (fun _ => 0) s t) fun _ _ => True := by
  have hzero : word (fun _ => 0) 0 2 < ninodes := by
    rw [word_zero]
    decide
  unfold eraseEntry
  refine wp_seq (wp_mono (wp_enter h hdp hdir hwhole hk.le hzero) (fun _ _ ht => ht) fun _ _ _ => trivial) fun r t ht => ?_
  obtain ⟨hbusy, hyes, hno⟩ := ht
  cases r with
  | false => exact absurd (hno rfl).1 hk.ne
  | true =>
    have henters := hyes rfl
    rw [wp_ite]
    refine ⟨fun htrue => (by cases htrue), fun _ => ?_⟩
    rw [wp_bind, wp_get, wp_ite]
    refine ⟨fun _ => ?_, fun _ => (wp_pure _).mpr ⟨hbusy, henters⟩⟩
    have hv := hbusy.valid hdp
    have halloc := hbusy.alloc hv
    refine wp_mono (wp_and (busy_change hbusy hdp dropLink_fields dropLink_fits)
      (wp_changes (E := fun _ _ => True) halloc.1 hv hbusy.open_op)) (fun _ u hu => ?_) fun _ _ _ => trivial
    exact ⟨hu.1, henters.leaves (hu.2.leaves hbusy.toSound dropLink_fields halloc)⟩

theorem removeEntry_enters (h : s.Busy o L H) (hdp : dp ∈ L) (hdir : (s.node dp).type = tDir)
    (hwhole : (s.node dp).size % direntSize = 0) : wp (removeEntry dp name) s (fun r t =>
      match r with
      | none => t.Busy o L H ∧ Leaves dp s t
      | some ip => t.Busy o (ip :: L) (ip :: H) ∧ ∃ k, s.entryOf dp (key name) = some k ∧ Enters dp k (fun _ => 0) s t)
      fun _ _ => True := by
  have hstay : Leaves dp s s := .refl dp s
  unfold removeEntry
  rw [wp_ite]
  refine ⟨fun _ => (wp_pure _).mpr ⟨h, hstay⟩, fun _ => ?_⟩
  refine wp_seq (wp_mono (dirlookup_entryOf h hdp hdir hwhole) (fun _ _ ht => ht) fun _ _ he => he.elim) fun r t ht => ?_
  obtain ⟨hr, hfound, -, hleaves⟩ := ht
  cases hx : s.entryOf dp (key name) with
  | none =>
    rw [hx, Option.map_none] at hr
    subst hr
    exact (wp_pure _).mpr ⟨hfound.1, hleaves⟩
  | some k =>
    rw [hx, Option.map_some] at hr
    subst hr
    dsimp only
    have hbusy : t.Busy o L (s.inum dp k :: H) := hfound.1
    have hlock := wp_and (busy_ilock hbusy List.mem_cons_self) (ilock_borrows (s := t) (i := s.inum dp k))
    refine wp_seq (wp_mono hlock (fun _ _ hu => hu) fun _ _ _ => trivial) fun _ u hu => ?_
    obtain ⟨hbusy', hb⟩ := hu
    have hleaves' := hleaves.trans (hb.leaves hbusy.toSound hbusy'.toSound (hbusy.alloc (hbusy.valid hdp)))
    have hdp' : dp ∈ s.inum dp k :: L := List.mem_cons_of_mem _ hdp
    refine wp_seq (wp_removable (Q := fun _ v => v = u) (fun _ _ => trivial) hbusy' List.mem_cons_self fun _ => rfl)
      fun ok v hv => ?_
    subst hv
    rw [wp_ite]
    refine ⟨fun _ => ?_, fun _ => ?_⟩
    · have hput := wp_and (iput_logged (E := fun _ _ => True) hbusy' (List.Perm.refl _)
        fun j hj => ⟨List.mem_cons_of_mem _ hj, (h.locked j hj).1⟩) (iput_leaves (E := fun _ _ => True) hbusy'.toGood
          hbusy'.open_op (h.locked dp hdp).1 (hbusy'.alloc (hbusy'.valid hdp')))
      refine wp_seq (wp_mono hput (fun _ _ hw => hw) fun _ _ _ => trivial) fun _ w hw => ?_
      exact (wp_pure _).mpr ⟨hw.1.1, hleaves'.trans hw.2⟩
    · have hk : k < v.entries dp := by
        rw [hleaves'.entries]
        exact List.mem_range.mp (List.mem_of_find?_eq_some hx)
      refine wp_seq (eraseEntry_enters hbusy' hdp' (hleaves'.type.trans hdir) (by rw [hleaves'.size, hwhole]) hk)
        fun _ w hw => ?_
      exact (wp_pure _).mpr ⟨hw.1, k, rfl, hw.2.after hleaves'⟩

end Xv6.Disk
