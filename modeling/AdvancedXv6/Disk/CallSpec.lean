import AdvancedXv6.Disk.Keep

/-! Directories, paths and system calls keep the invariant. -/

namespace Xv6.Disk
open Function Effect Bytes Fs
variable {H K L N : List Nat} {o : Nat} {s t u : Fs} {i j dp off n k inum : Nat} {name : Name} {e : Panic}
  {src : Nat → UInt8} {dev : Bool} {io : Option (List UInt8)} {f : Dinode → Dinode}

/-- In a transaction, with `o` others; the call has the references `H` and the locks `L`. -/
structure Fs.Busy (o : Nat) (L H : List Nat) (s : Fs) : Prop extends Good H s where
  locked : ∀ i ∈ L, i ∈ H ∧ s.valid i = true
  outstanding : s.outstanding = o + 1

namespace Fs.Busy

theorem next (h : s.Busy o L H) (hgood : t.Good K) (hstays : s.Stays H t) (hsub : ∀ i ∈ N, i ∈ L ∧ i ∈ K) :
    t.Busy o N K := by
  refine ⟨hgood, fun i hi => ?_, hstays.outstanding.trans h.outstanding⟩
  obtain ⟨hL, hH⟩ := hsub i hi
  obtain ⟨hmem, hv⟩ := h.locked i hL
  exact ⟨hH, (hstays.locked i hmem hv).1⟩

theorem perm (h : s.Busy o L H) (hp : H.Perm K) : s.Busy o L K :=
  ⟨⟨h.toSound, fun i => hp.count_eq i ▸ h.owned i⟩, fun i hi => ⟨hp.mem_iff.mp (h.locked i hi).1, (h.locked i hi).2⟩,
    h.outstanding⟩

theorem open_op (h : s.Busy o L H) : 1 ≤ s.outstanding := by
  rw [h.outstanding]
  exact Nat.succ_pos o

theorem valid (h : s.Busy o L H) (hi : i ∈ L) : s.valid i = true := (h.locked i hi).2

end Fs.Busy

section Inodes
variable (h : s.Busy o L H)
include h

theorem busy_iget (hi : i < ninodes) : wp (iget i) s (fun _ t => t.Busy o L (i :: H)) Harmless :=
  wp_mono (wp_iget h.toGood hi)
    (fun _ _ ht => h.next ht.1 ht.2 fun j hj => ⟨hj, List.mem_cons_of_mem i (h.locked j hj).1⟩) fun _ _ he => he

theorem busy_idup (hi : i ∈ H) : wp (idup i) s (fun _ t => t.Busy o L (i :: H)) Harmless :=
  wp_mono (wp_idup h.toGood (Nat.le_trans (List.count_pos_iff.mpr hi) (h.owned i)))
    (fun _ _ ht => h.next ht.1 ht.2 fun j hj => ⟨hj, List.mem_cons_of_mem i (h.locked j hj).1⟩) fun _ _ he => he

theorem busy_ilock (hi : i ∈ H) : wp (ilock i) s (fun _ t => t.Busy o (i :: L) H) Harmless := by
  refine wp_mono (wp_ilock h.toGood (h.number hi)) (fun _ t ht => ?_) fun _ _ he => he
  have hnext : t.Busy o L H := h.next ht.1 ht.2.1 fun j hj => ⟨hj, (h.locked j hj).1⟩
  refine ⟨ht.1, fun j hj => ?_, hnext.outstanding⟩
  obtain rfl | hj := List.mem_cons.mp hj
  · exact ⟨hi, ht.2.2⟩
  · exact hnext.locked j hj

theorem iput_logged {E : Panic → Fs → Prop} (hp : H.Perm (i :: K)) (hsub : ∀ j ∈ N, j ∈ L ∧ j ∈ K) :
    wp (iput i) s (fun _ t => t.Busy o N K ∧ Logs (· = iblock i) s t) E := by
  have h' := h.perm hp
  refine wp_mono (wp_iput h'.toGood h.open_op) (fun _ t ht => ?_) fun _ _ he => he
  refine ⟨⟨ht.1, fun j hj => ?_, ht.2.1.outstanding.trans h.outstanding⟩, ht.2.2⟩
  obtain ⟨hL, hH⟩ := hsub j hj
  exact ⟨hH, (ht.2.1.locked j hH (h.valid hL)).1⟩

/-- `iunlockput`, when the inode is locked -/
theorem busy_iput (hp : H.Perm (i :: K)) (hsub : ∀ j ∈ N, j ∈ L ∧ j ∈ K) :
    wp (iput i) s (fun _ t => t.Busy o N K) Harmless :=
  wp_mono (iput_logged h hp hsub) (fun _ _ ht => ht.1) fun _ _ he => he

theorem busy_ialloc {type : Nat} (hfit : type < 2 ^ 16) :
    wp (ialloc type) s (fun i t => t.Busy o L (i :: H)) Harmless :=
  wp_mono (wp_ialloc h.toGood h.open_op hfit)
    (fun i _ ht => h.next ht.1 ht.2 fun j hj => ⟨hj, List.mem_cons_of_mem i (h.locked j hj).1⟩) fun _ _ he => he

theorem busy_change (hi : i ∈ L) (hf : ∀ d, (f d).type = d.type ∧ (f d).size = d.size ∧ (f d).addrs = d.addrs)
    (hfit : ∀ d, d.Fits → (f d).Fits) : wp (change i f) s (fun _ t => t.Busy o L H) Harmless :=
  wp_mono (wp_change h.toGood (h.valid hi) h.open_op hf hfit)
    (fun _ _ ht => h.next ht.1 ht.2 fun j hj => ⟨hj, (h.locked j hj).1⟩) fun _ _ he => he

theorem busy_writei (hi : i ∈ L) (hoff : off < 2 ^ 32) (hn : n < 2 ^ 32) (hentry : Entry (s.ip i).type src off n) :
    wp (writei i src off n dev) s (fun _ t => t.Busy o L H) Harmless :=
  wp_mono (wp_writei_sound h.toGood (h.valid hi) h.open_op hoff hn hentry)
    (fun _ _ ht => h.next ht.1 ht.2 fun j hj => ⟨hj, (h.locked j hj).1⟩) fun _ _ he => he

end Inodes

/-! ### Directories -/

/-- An entry is read without any effect. -/
theorem wp_readDirent {Q : (Nat → UInt8) → Fs → Prop} {E : Panic → Fs → Prop} (h : s.Sound) (hv : s.valid dp = true)
    (hdir : (s.ip dp).type = tDir) (he : E e s)
    (hQ : ∀ de, off + direntSize ≤ (s.ip dp).size → (∀ k, k < direntSize → de k = s.byte dp (off + k)) → Q de s) :
    wp (readDirent dp off e) s Q E := by
  have hlen : direntSize = 16 := rfl
  unfold readDirent
  rw [wp_bind]
  refine wp_readi_sound h hv (by decide) (fun hdev => ?_) ((wp_throw _).mpr he) fun hle => ?_
  · rw [hdir] at hdev
    cases hdev
  · dsimp only
    rw [List.length_map, List.length_range, wp_ite]
    refine ⟨fun _ => (wp_throw _).mpr he, fun hfull => ?_⟩
    rw [wp_pure]
    refine hQ _ (by omega) fun k hk => ?_
    rw [List.getD_eq_getElem _ _ (by simp only [List.length_map, List.length_range]; omega), List.getElem_map,
      List.getElem_range]

theorem dirent_inum (hi : i < ninodes) : word (dirent i name) 0 2 = i := by
  have hword : word (dirent i name) 0 2 = word (digits i) 0 2 := word_congr fun k _ hk => if_pos (by omega)
  rw [hword, word_digits, pow_zero, Nat.div_one]
  exact Nat.mod_eq_of_lt (Nat.lt_trans hi (by decide))

/-- What `dirlookup` returns, with the reference to the inode that it found. -/
def Found (o : Nat) (L H : List Nat) (dp : Nat) (r : Option (Nat × Nat)) (t : Fs) : Prop :=
  match r with
  | none => t.Busy o L H ∧ (t.ip dp).type = tDir
  | some (i, off) => t.Busy o L (i :: H) ∧ off % direntSize = 0 ∧ off < 2 ^ 32

section Directories
variable (h : s.Busy o L H) (hdp : dp ∈ L)
include h hdp

theorem size_lt : (s.ip dp).size ≤ maxFile * bsize := by
  have hv := h.valid hdp
  rw [← node_eq hv]
  exact h.size_le (h.alloc hv)

theorem dirlookupLoop_found (hdir : (s.ip dp).type = tDir) (rounds : Nat) (hoff : off % direntSize = 0) :
    wp (dirlookupLoop dp name rounds off) s (Found o L H dp) Harmless := by
  induction rounds generalizing off with
  | zero =>
    rw [dirlookupLoop, wp_pure]
    exact ⟨h, hdir⟩
  | succ rounds ih =>
    have hv := h.valid hdp
    have hcap : maxFile * bsize = 71680 := rfl
    have hmax := size_lt h hdp
    rw [dirlookupLoop, wp_bind, wp_get, wp_ite]
    refine ⟨fun _ => (wp_pure _).mpr ⟨h, hdir⟩, fun _ => ?_⟩
    rw [wp_bind]
    apply wp_readDirent h.toSound hv hdir ⟨by decide, by decide, by decide⟩
    intro de hle hde
    rw [wp_ite]
    refine ⟨fun hmatch => ?_, fun _ => ih (by rw [Nat.add_mod_right, hoff])⟩
    have hmul : direntSize * (off / direntSize) = off := by
      rw [Nat.mul_div_cancel' (Nat.dvd_of_mod_eq_zero hoff)]
    have hnum : word de 0 2 < ninodes := by
      have hname := h.names dp (off / direntSize) (h.alloc hv) (by rw [node_eq hv]; exact hdir)
        (by rw [hmul, node_eq hv]; exact hle)
      unfold inum at hname
      rw [hmul] at hname
      rw [word_window fun k hk => hde k (Nat.lt_trans hk (by decide))]
      exact hname
    refine wp_seq (busy_iget h hnum) fun _ t ht => ?_
    rw [wp_pure]
    exact ⟨ht, hoff, by omega⟩

theorem dirlookup_found : wp (dirlookup dp name) s (Found o L H dp) Harmless := by
  unfold dirlookup
  rw [wp_bind, wp_get]
  dsimp only
  rw [wp_ite]
  refine ⟨fun _ => (wp_throw _).mpr ⟨by decide, by decide, by decide⟩, fun hdir => ?_⟩
  exact dirlookupLoop_found h hdp (not_not.mp hdir) _ (Nat.zero_mod _)

/-- The entry is in the directory or at its end. -/
theorem wp_freeDirent {Q : Nat → Fs → Prop} {E : Panic → Fs → Prop} (hE : E .dirlinkRead s)
    (hdir : (s.ip dp).type = tDir) (rounds : Nat) (hoff : off % direntSize = 0) (hle : off ≤ (s.ip dp).size)
    (hQ : ∀ off, off % direntSize = 0 → off ≤ (s.ip dp).size → Q off s) : wp (freeDirent dp rounds off) s Q E := by
  induction rounds generalizing off with
  | zero =>
    rw [freeDirent, wp_pure]
    exact hQ off hoff hle
  | succ rounds ih =>
    rw [freeDirent, wp_bind, wp_get, wp_ite]
    refine ⟨fun _ => (wp_pure _).mpr (hQ off hoff hle), fun _ => ?_⟩
    rw [wp_bind]
    apply wp_readDirent h.toSound (h.valid hdp) hdir hE
    intro de hnext _
    rw [wp_ite]
    refine ⟨fun _ => (wp_pure _).mpr (hQ off hoff hle), fun _ => ih ?_ hnext⟩
    rw [Nat.add_mod_right, hoff]

theorem dirlink_busy (hi : i < ninodes) (hsub : ∀ j ∈ L, j ∈ H) :
    wp (dirlink dp name i) s (fun _ t => t.Busy o L H) Harmless := by
  unfold dirlink
  refine wp_seq (dirlookup_found h hdp) fun r t ht => ?_
  cases r with
  | some r =>
    dsimp only
    refine wp_seq (busy_iput ht.1 (List.Perm.refl _) fun j hj => ⟨hj, hsub j hj⟩) fun _ u hu => ?_
    exact (wp_pure _).mpr hu
  | none =>
    obtain ⟨ht, hdir⟩ := ht
    have hmax := size_lt ht hdp
    have hcap : maxFile * bsize = 71680 := rfl
    dsimp only
    rw [wp_bind, wp_get, wp_bind]
    refine wp_freeDirent ht hdp ⟨by decide, by decide, by decide⟩ hdir _ (Nat.zero_mod _) (Nat.zero_le _)
      fun off hoff hle => ?_
    refine wp_seq (busy_writei ht hdp (by omega) (by decide) fun _ => ⟨hoff, rfl, ?_⟩) fun r u hu => ?_
    · rw [dirent_inum hi]
      exact hi
    · rw [wp_ite]
      exact ⟨fun _ => (wp_throw _).mpr ⟨by decide, by decide, by decide⟩, fun _ => (wp_pure _).mpr hu⟩

theorem wp_isdirempty {Q : Bool → Fs → Prop} {E : Panic → Fs → Prop} (hE : E .isdirempty s)
    (hdir : (s.ip dp).type = tDir) (rounds : Nat) (hQ : ∀ r, Q r s) : wp (isdirempty dp rounds off) s Q E := by
  induction rounds generalizing off with
  | zero =>
    rw [isdirempty, wp_pure]
    exact hQ true
  | succ rounds ih =>
    rw [isdirempty, wp_bind, wp_get, wp_ite]
    refine ⟨fun _ => (wp_pure _).mpr (hQ true), fun _ => ?_⟩
    rw [wp_bind]
    apply wp_readDirent h.toSound (h.valid hdp) hdir hE
    intro de _ _
    rw [wp_ite]
    exact ⟨fun _ => (wp_pure _).mpr (hQ false), fun _ => ih⟩

end Directories

/-! ### Paths -/

/-- What `namex` returns, with a reference to the inode that it found. -/
def Walked {α : Type} (o : Nat) (H : List Nat) (i : α → Nat) (r : Option α) (t : Fs) : Prop :=
  match r with
  | none => t.Busy o [] H
  | some a => t.Busy o [] (i a :: H)

theorem namexLoop_walked (np : Bool) (names : List Name) (h : s.Busy o [] (i :: H)) :
    wp (namexLoop np i names) s (Walked o H Prod.fst) Harmless := by
  induction names generalizing i s with
  | nil =>
    rw [namexLoop, wp_ite]
    refine ⟨fun _ => ?_, fun _ => (wp_pure _).mpr h⟩
    refine wp_seq (busy_iput h (List.Perm.refl _) (N := []) (by simp)) fun _ t ht => ?_
    exact (wp_pure _).mpr ht
  | cons name rest ih =>
    rw [namexLoop, wp_bind]
    refine wp_mono (busy_ilock h List.mem_cons_self) (fun _ t ht => ?_) fun _ _ he => he
    have hdrop : ∀ {u : Fs}, u.Busy o [i] (i :: H) →
        wp (do iput i; return none) u (Walked o H (Prod.fst (α := Nat) (β := Name))) Harmless := by
      intro u hu
      refine wp_seq (busy_iput hu (List.Perm.refl _) (N := []) (by simp)) fun _ v hv => ?_
      exact (wp_pure _).mpr hv
    rw [wp_bind, wp_get, wp_ite]
    refine ⟨fun _ => hdrop ht, fun _ => ?_⟩
    rw [wp_ite]
    refine ⟨fun _ => (wp_pure _).mpr ⟨ht.toGood, by simp, ht.outstanding⟩, fun _ => ?_⟩
    refine wp_seq (dirlookup_found ht List.mem_cons_self) fun r u hu => ?_
    cases r with
    | none => exact hdrop hu.1
    | some r =>
      dsimp only
      refine wp_seq (busy_iput hu.1 (List.Perm.swap ..) (N := []) (by simp)) fun _ v hv => ih hv

theorem namex_walked (h : s.Busy o [] H) (hcwd : i ∈ H) (path : Name) (np : Bool) :
    wp (namex i path np) s (Walked o H Prod.fst) Harmless := by
  unfold namex
  rw [wp_ite]
  refine ⟨fun _ => ?_, fun _ => ?_⟩
  · exact wp_seq (busy_iget h (by decide)) fun _ t ht => namexLoop_walked np _ ht
  · exact wp_seq (busy_idup h hcwd) fun _ t ht => namexLoop_walked np _ ht

theorem namei_walked (h : s.Busy o [] H) (hcwd : i ∈ H) (path : Name) :
    wp (namei i path) s (Walked o H id) Harmless := by
  unfold namei
  refine wp_seq (namex_walked h hcwd path false) fun r t ht => ?_
  rw [wp_pure]
  cases r with
  | none => exact ht
  | some r => exact ht

/-! ### System calls -/

theorem addLink_fields (d : Dinode) : (addLink d).type = d.type ∧ (addLink d).size = d.size ∧ (addLink d).addrs = d.addrs :=
  ⟨rfl, rfl, rfl⟩

theorem dropLink_fields (d : Dinode) :
    (dropLink d).type = d.type ∧ (dropLink d).size = d.size ∧ (dropLink d).addrs = d.addrs := by
  unfold dropLink
  exact ⟨rfl, rfl, rfl⟩

theorem nlink_fits {n : Nat} (d : Dinode) (h : d.Fits) (hn : n < 2 ^ 16) : ({ d with nlink := n } : Dinode).Fits :=
  ⟨h.type, h.major, h.minor, hn, h.size, h.addrs, h.rest⟩

theorem addLink_fits (d : Dinode) (h : d.Fits) : (addLink d).Fits := by
  unfold addLink
  apply nlink_fits d h
  apply Nat.mod_lt
  exact Nat.two_pow_pos 16

theorem dropLink_fits (d : Dinode) (h : d.Fits) : (dropLink d).Fits := by
  unfold dropLink
  apply nlink_fits d h
  apply Nat.mod_lt
  exact Nat.two_pow_pos 16

/-- What `create` returns: the inode is locked. -/
def Created (o : Nat) (H : List Nat) (r : Option Nat) (t : Fs) : Prop :=
  match r with
  | none => t.Busy o [] H
  | some i => t.Busy o [i] (i :: H)

/-- The entries that are added by `create`. -/
theorem wp_dirlink_or {α : Type} {Q : α → Fs → Prop} {m : M α} {panic : Panic} (h : s.Busy o L H) (hdp : dp ∈ L)
    (hi : i < ninodes) (hsub : ∀ j ∈ L, j ∈ H) (hpanic : ∀ t, Harmless panic t)
    (hm : ∀ t : Fs, t.Busy o L H → wp m t Q Harmless) :
    wp (do
      if !(← dirlink dp name i) then throw panic
      m) s Q Harmless := by
  refine wp_seq (dirlink_busy h hdp hi hsub) fun r t ht => ?_
  rw [wp_ite]
  exact ⟨fun _ => (wp_throw _).mpr (hpanic t), fun _ => hm t ht⟩

theorem create_created {cwd type major minor : Nat} (h : s.Busy o [] H) (hcwd : cwd ∈ H) (path : Name)
    (htype : type < 2 ^ 16) : wp (create cwd path type major minor) s (Created o H) Harmless := by
  unfold create nameiparent
  refine wp_seq (namex_walked h hcwd path true) fun r t₁ h₁ => ?_
  cases r with
  | none => exact (wp_pure _).mpr h₁
  | some r =>
    obtain ⟨dp, name⟩ := r
    dsimp only
    refine wp_seq (busy_ilock h₁ List.mem_cons_self) fun _ t₂ h₂ => ?_
    refine wp_seq (dirlookup_found h₂ List.mem_cons_self) fun r t₃ h₃ => ?_
    cases r with
    | some r =>
      obtain ⟨ip, off⟩ := r
      dsimp only
      refine wp_seq (busy_iput h₃.1 (List.Perm.swap ..) (N := []) (by simp)) fun _ t₄ h₄ => ?_
      refine wp_seq (busy_ilock h₄ List.mem_cons_self) fun _ t₅ h₅ => ?_
      rw [wp_bind, wp_get, wp_ite]
      refine ⟨fun _ => (wp_pure _).mpr h₅, fun _ => ?_⟩
      refine wp_seq (busy_iput h₅ (List.Perm.refl _) (N := []) (by simp)) fun _ t₆ h₆ => ?_
      exact (wp_pure _).mpr h₆
    | none =>
      dsimp only
      refine wp_seq (busy_ialloc h₃.1 htype) fun ip t₄ h₄ => ?_
      have hip : ip < ninodes := h₄.number List.mem_cons_self
      have hdp : dp < ninodes := h₄.number (List.mem_cons_of_mem ip List.mem_cons_self)
      refine wp_seq (busy_ilock h₄ List.mem_cons_self) fun _ t₅ h₅ => ?_
      have hsub : ∀ j ∈ [ip, dp], j ∈ ip :: dp :: H := by simp
      -- the last entry, whatever was done before
      have hlast : ∀ {t : Fs}, t.Busy o [ip, dp] (ip :: dp :: H) → wp (do
          if !(← dirlink dp name ip) then throw .create
          iput dp
          return some ip) t (Created o H) Harmless := by
        intro t ht
        refine wp_dirlink_or ht (by simp) hip hsub (fun _ => ⟨by decide, by decide, by decide⟩) fun t₇ h₇ => ?_
        refine wp_seq (busy_iput h₇ (List.Perm.swap ..) (N := [ip]) (by simp)) fun _ t₈ h₈ => ?_
        exact (wp_pure _).mpr h₈
      refine wp_seq (busy_change h₅ List.mem_cons_self (fun _ => ⟨rfl, rfl, rfl⟩) fun d hd => ?_) fun _ t₆ h₆ => ?_
      · exact ⟨hd.type, Nat.mod_lt major (Nat.two_pow_pos 16), Nat.mod_lt minor (Nat.two_pow_pos 16),
          Nat.one_lt_two_pow (by decide), hd.size, hd.addrs, hd.rest⟩
      rw [wp_ite]
      refine ⟨fun _ => ?_, fun _ => hlast h₆⟩
      refine wp_seq (busy_change h₆ (by simp) addLink_fields addLink_fits) fun _ t₇ h₇ => ?_
      refine wp_dirlink_or h₇ (by simp) hip hsub (fun _ => ⟨by decide, by decide, by decide⟩) fun t₈ h₈ => ?_
      exact wp_dirlink_or h₈ (by simp) hdp hsub (fun _ => ⟨by decide, by decide, by decide⟩) fun t₉ h₉ => hlast h₉

/-- A system call in its transaction. -/
theorem wp_inOp {α : Type} {m : M α} {K : α → List Nat} (h : s.Good H)
    (hm : ∀ t : Fs, t.Busy s.outstanding [] H → wp m t (fun r u => u.Busy s.outstanding [] (K r)) Harmless) :
    wp (inOp m) s (fun r u => u.Good (K r) ∧ u.outstanding = s.outstanding) Harmless := by
  unfold inOp
  rw [wp_bind, wp_modify, wp_bind]
  have hstart : Fs.Busy s.outstanding [] H { s with outstanding := s.outstanding + 1 } :=
    ⟨⟨h.same_node rfl (fun _ => rfl) h.synced h.live h.refs, h.owned⟩, by simp, rfl⟩
  refine wp_mono (hm _ hstart) (fun r u hu => ?_) fun _ _ he => he
  rw [wp_bind, wp_modify, wp_pure]
  refine ⟨⟨hu.same_node rfl (fun _ => rfl) hu.synced hu.live hu.refs, hu.owned⟩, ?_⟩
  dsimp only
  rw [hu.outstanding, Nat.add_sub_cancel]

/-- `iput` and what comes after it. -/
theorem wp_iput_then {α : Type} {Q : α → Fs → Prop} {m : M α} (h : s.Busy o L H) (hp : H.Perm (i :: K))
    (hsub : ∀ j ∈ N, j ∈ L ∧ j ∈ K) (hm : ∀ t : Fs, t.Busy o N K → wp m t Q Harmless) :
    wp (do iput i; m) s Q Harmless :=
  wp_seq (busy_iput h hp hsub) fun _ t ht => hm t ht

/-- The references that a call returns. -/
def refs {α : Type} (f : α → Nat) (H : List Nat) : Option α → List Nat
  | none => H
  | some a => f a :: H

theorem linkBad_busy {ip : Nat} (h : s.Busy o [] (ip :: H)) :
    wp (linkBad ip) s (fun _ t => t.Busy o [] H) Harmless := by
  unfold linkBad
  refine wp_seq (busy_ilock h List.mem_cons_self) fun _ t₁ h₁ => ?_
  refine wp_seq (busy_change h₁ List.mem_cons_self dropLink_fields dropLink_fits) fun _ t₂ h₂ => ?_
  exact wp_iput_then h₂ (List.Perm.refl _) (N := []) (by simp) fun t₃ h₃ => (wp_pure _).mpr h₃

theorem wp_removable {Q : Bool → Fs → Prop} {E : Panic → Fs → Prop} (hE : ∀ e, e = .nlink ∨ e = .isdirempty → E e s)
    (h : s.Busy o L H) (hi : i ∈ L) (hQ : ∀ r, Q r s) : wp (removable i) s Q E := by
  unfold removable
  rw [wp_bind, wp_get]
  dsimp only
  rw [wp_ite]
  refine ⟨fun _ => (wp_throw _).mpr (hE _ (.inl rfl)), fun _ => ?_⟩
  rw [wp_ite]
  exact ⟨fun hdir => wp_isdirempty h hi (hE _ (.inr rfl)) hdir _ hQ, fun _ => (wp_pure _).mpr (hQ true)⟩

theorem eraseEntry_busy {ip : Nat} (h : s.Busy o L H) (hdp : dp ∈ L) (hmod : off % direntSize = 0) (hoff : off < 2 ^ 32) :
    wp (eraseEntry dp ip off) s (fun _ t => t.Busy o L H) Harmless := by
  unfold eraseEntry
  have hzero : word (fun _ => 0) 0 2 < ninodes := by
    rw [word_zero]
    decide
  refine wp_seq (busy_writei h hdp hoff (by decide) fun _ => ⟨hmod, rfl, hzero⟩) fun r t ht => ?_
  dsimp only
  rw [wp_ite]
  refine ⟨fun _ => (wp_throw _).mpr ⟨by decide, by decide, by decide⟩, fun _ => ?_⟩
  rw [wp_bind, wp_get, wp_ite]
  exact ⟨fun _ => busy_change ht hdp dropLink_fields dropLink_fits, fun _ => (wp_pure _).mpr ht⟩

section Calls
variable {cwd : Nat} (h : s.Good H) (hcwd : cwd ∈ H)
include h hcwd

theorem sysOpen_good (path : Name) (omode : Nat) (full : Bool) :
    wp (sysOpen cwd path omode full) s (fun r t => t.Good (refs id H r) ∧ t.outstanding = s.outstanding) Harmless := by
  refine wp_inOp h fun t₁ h₁ => ?_
  have hfinish : ∀ {r : Option Nat} {t : Fs}, Created s.outstanding H r t → wp (do
      match r with
      | none => return none
      | some ip =>
        if full then
          iput ip
          return none
        return some ip) t (fun r u => u.Busy s.outstanding [] (refs id H r)) Harmless := by
    intro r t ht
    cases r with
    | none => exact (wp_pure _).mpr ht
    | some ip =>
      dsimp only
      rw [wp_ite]
      refine ⟨fun _ => ?_, fun _ => (wp_pure _).mpr ⟨ht.toGood, by simp, ht.outstanding⟩⟩
      exact wp_iput_then ht (List.Perm.refl _) (N := []) (by simp) fun u hu => (wp_pure _).mpr hu
  rw [wp_ite]
  refine ⟨fun _ => ?_, fun _ => ?_⟩
  · exact wp_seq (create_created h₁ hcwd path (by decide)) fun r t ht => hfinish ht
  · refine wp_seq (namei_walked h₁ hcwd path) fun r t₂ h₂ => ?_
    cases r with
    | none => exact hfinish (r := none) h₂
    | some ip =>
      refine wp_seq (busy_ilock h₂ List.mem_cons_self) fun _ t₃ h₃ => ?_
      rw [wp_bind, wp_get, wp_ite]
      refine ⟨fun _ => ?_, fun _ => hfinish (r := some ip) h₃⟩
      exact wp_iput_then h₃ (List.Perm.refl _) (N := []) (by simp) fun t₄ h₄ => hfinish (r := none) h₄

theorem sysMake_good {type major minor : Nat} (path : Name) (htype : type < 2 ^ 16) :
    wp (sysMake cwd path type major minor) s (fun _ t => t.Good H ∧ t.outstanding = s.outstanding) Harmless := by
  refine wp_inOp (K := fun _ => H) h fun t₁ h₁ => ?_
  refine wp_seq (create_created h₁ hcwd path htype) fun r t₂ h₂ => ?_
  cases r with
  | none => exact (wp_pure _).mpr h₂
  | some ip => exact wp_iput_then h₂ (List.Perm.refl _) (N := []) (by simp) fun t₃ h₃ => (wp_pure _).mpr h₃

theorem sysLink_good (old new : Name) :
    wp (sysLink cwd old new) s (fun _ t => t.Good H ∧ t.outstanding = s.outstanding) Harmless := by
  refine wp_inOp (K := fun _ => H) h fun t₁ h₁ => ?_
  refine wp_seq (namei_walked h₁ hcwd old) fun r t₂ h₂ => ?_
  cases r with
  | none => exact (wp_pure _).mpr h₂
  | some ip =>
    refine wp_seq (busy_ilock h₂ List.mem_cons_self) fun _ t₃ h₃ => ?_
    rw [wp_bind, wp_get, wp_ite]
    refine ⟨fun _ => ?_, fun _ => ?_⟩
    · exact wp_iput_then h₃ (List.Perm.refl _) (N := []) (by simp) fun t₄ h₄ => (wp_pure _).mpr h₄
    refine wp_seq (busy_change h₃ List.mem_cons_self addLink_fields addLink_fits) fun _ t₄ h₄ => ?_
    have h₄' : t₄.Busy s.outstanding [] (ip :: H) := ⟨h₄.toGood, by simp, h₄.outstanding⟩
    refine wp_seq (namex_walked h₄' (List.mem_cons_of_mem ip hcwd) new true) fun r t₅ h₅ => ?_
    cases r with
    | none => exact linkBad_busy h₅
    | some r =>
      obtain ⟨dp, name⟩ := r
      refine wp_seq (busy_ilock h₅ List.mem_cons_self) fun _ t₆ h₆ => ?_
      have hip : ip < ninodes := h₆.number (List.mem_cons_of_mem _ List.mem_cons_self)
      refine wp_seq (dirlink_busy h₆ (List.mem_cons_self (a := dp)) hip (by simp)) fun r t₇ h₇ => ?_
      rw [wp_ite]
      refine ⟨fun _ => ?_, fun _ => ?_⟩
      · exact wp_iput_then h₇ (List.Perm.refl _) (N := []) (by simp) fun t₈ h₈ => linkBad_busy h₈
      · refine wp_iput_then h₇ (List.Perm.refl _) (N := []) (by simp) fun t₈ h₈ => ?_
        exact wp_iput_then h₈ (List.Perm.refl _) (N := []) (by simp) fun t₉ h₉ => (wp_pure _).mpr h₉

theorem sysUnlink_good (path : Name) :
    wp (sysUnlink cwd path) s (fun _ t => t.Good H ∧ t.outstanding = s.outstanding) Harmless := by
  refine wp_inOp (K := fun _ => H) h fun t₁ h₁ => ?_
  refine wp_seq (namex_walked h₁ hcwd path true) fun r t₂ h₂ => ?_
  cases r with
  | none => exact (wp_pure _).mpr h₂
  | some r =>
    obtain ⟨dp, name⟩ := r
    have hgive : ∀ {t : Fs}, t.Busy s.outstanding [dp] (dp :: H) →
        wp (do iput dp; return false) t (fun _ u => u.Busy s.outstanding [] H) Harmless := fun ht =>
      wp_iput_then ht (List.Perm.refl _) (N := []) (by simp) fun u hu => (wp_pure _).mpr hu
    refine wp_seq (busy_ilock h₂ List.mem_cons_self) fun _ t₃ h₃ => ?_
    rw [wp_ite]
    refine ⟨fun _ => hgive h₃, fun _ => ?_⟩
    refine wp_seq (dirlookup_found h₃ List.mem_cons_self) fun r t₄ h₄ => ?_
    cases r with
    | none => exact hgive h₄.1
    | some r =>
      obtain ⟨ip, off⟩ := r
      obtain ⟨h₄, hmod, hoff⟩ := h₄
      refine wp_seq (busy_ilock h₄ List.mem_cons_self) fun _ t₅ h₅ => ?_
      have hip : ip ∈ [ip, dp] := List.mem_cons_self
      have hdp : dp ∈ [ip, dp] := List.mem_cons_of_mem ip List.mem_cons_self
      have hharmless : ∀ e, e = Panic.nlink ∨ e = .isdirempty → Harmless e t₅ := by
        rintro e (rfl | rfl) <;> exact ⟨by decide, by decide, by decide⟩
      refine wp_seq (wp_removable hharmless h₅ hip fun r => h₅) fun r t₆ h₆ => ?_
      rw [wp_ite]
      refine ⟨fun _ => ?_, fun _ => ?_⟩
      · exact wp_iput_then h₆ (List.Perm.refl _) (N := [dp]) (by simp) fun t₇ h₇ => hgive h₇
      refine wp_seq (eraseEntry_busy h₆ hdp hmod hoff) fun _ t₇ h₇ => ?_
      refine wp_iput_then h₇ (List.Perm.swap ..) (N := [ip]) (by simp) fun t₈ h₈ => ?_
      refine wp_seq (busy_change h₈ List.mem_cons_self dropLink_fields dropLink_fits) fun _ t₉ h₉ => ?_
      exact wp_iput_then h₉ (List.Perm.refl _) (N := []) (by simp) fun u hu => (wp_pure _).mpr hu

theorem exec_good (path : Name) (reads : List (Nat × Nat)) (hreads : ∀ r ∈ reads, r.2 < 2 ^ 32) :
    wp (exec cwd path reads) s (fun _ t => t.Good H ∧ t.outstanding = s.outstanding) Harmless := by
  refine wp_inOp (K := fun _ => H) h fun t₁ h₁ => ?_
  refine wp_seq (namei_walked h₁ hcwd path) fun r t₂ h₂ => ?_
  cases r with
  | none => exact (wp_pure _).mpr h₂
  | some ip =>
    refine wp_seq (busy_ilock h₂ List.mem_cons_self) fun _ t₃ h₃ => ?_
    refine wp_seq (wp_forEach (I := fun rs t => t.Busy s.outstanding [ip] (ip :: H) ∧ ∀ r ∈ rs, r.2 < 2 ^ 32)
      (fun r rs t ht => ?_) reads ⟨h₃, hreads⟩) fun _ t₄ h₄ => ?_
    · have hrest : t.Busy s.outstanding [ip] (ip :: H) ∧ ∀ r ∈ rs, r.2 < 2 ^ 32 :=
        ⟨ht.1, fun r hr => ht.2 r (List.mem_cons_of_mem _ hr)⟩
      rw [wp_bind]
      refine wp_readi_sound ht.1.toSound (ht.1.valid List.mem_cons_self) (ht.2 r List.mem_cons_self) (fun _ => ?_) ?_
        fun _ => ?_
      · exact (wp_pure _).mpr hrest
      · exact (wp_pure _).mpr hrest
      · exact (wp_pure _).mpr hrest
    · exact wp_mono (busy_iput h₄.1 (List.Perm.refl _) (N := []) (by simp)) (fun _ _ hu => hu) fun _ _ he => he

/-- The reference to the old directory is given back. -/
theorem sysChdir_good (path : Name) : wp (sysChdir cwd path) s
    (fun r t => t.Good (match r with | none => H | some ip => (ip :: H).erase cwd) ∧ t.outstanding = s.outstanding)
    Harmless := by
  refine wp_inOp (K := fun r => match r with | none => H | some ip => (ip :: H).erase cwd) h fun t₁ h₁ => ?_
  refine wp_seq (namei_walked h₁ hcwd path) fun r t₂ h₂ => ?_
  cases r with
  | none => exact (wp_pure _).mpr h₂
  | some ip =>
    refine wp_seq (busy_ilock h₂ List.mem_cons_self) fun _ t₃ h₃ => ?_
    rw [wp_bind, wp_get, wp_ite]
    refine ⟨fun _ => ?_, fun _ => ?_⟩
    · exact wp_iput_then h₃ (List.Perm.refl _) (N := []) (by simp) fun t₄ h₄ => (wp_pure _).mpr h₄
    · have hperm := List.perm_cons_erase (List.mem_cons_of_mem ip hcwd)
      exact wp_iput_then h₃ hperm (N := []) (by simp) fun t₄ h₄ => (wp_pure _).mpr h₄

end Calls

section Files
variable (h : s.Good H) (hi : i ∈ H)
include h hi

theorem fileread_good (hn : n < 2 ^ 32) : wp (fileread i off n io) s
    (fun _ t => t.Good H ∧ t.outstanding = s.outstanding) Harmless := by
  unfold fileread
  refine wp_seq (wp_ilock h (h.number hi)) fun _ t ht => ?_
  have hdone : t.Good H ∧ t.outstanding = s.outstanding := ⟨ht.1, ht.2.1.outstanding⟩
  exact wp_readi_sound ht.1.toSound ht.2.2 hn (fun _ => hdone) hdone fun _ => hdone

theorem filewrite_good (hoff : off < 2 ^ 32) (hn : n < 2 ^ 32) : wp (filewrite i src off n dev) s
    (fun _ t => t.Good H ∧ t.outstanding = s.outstanding) Harmless := by
  refine wp_inOp (K := fun _ => H) h fun t₁ h₁ => ?_
  refine wp_seq (busy_ilock h₁ hi) fun _ t₂ h₂ => ?_
  have hunlock : ∀ {t : Fs}, t.Busy s.outstanding [i] H → t.Busy s.outstanding [] H :=
    fun ht => ⟨ht.toGood, by simp, ht.outstanding⟩
  rw [wp_bind, wp_get, wp_ite]
  refine ⟨fun _ => (wp_pure _).mpr (hunlock h₂), fun hdir => ?_⟩
  refine wp_mono (busy_writei h₂ List.mem_cons_self hoff hn fun htype => absurd htype hdir) (fun _ t ht => hunlock ht)
    fun _ _ he => he

end Files

end Xv6.Disk
