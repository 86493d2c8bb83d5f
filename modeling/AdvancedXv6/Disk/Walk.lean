import AdvancedXv6.Disk.CallSpec

/-! Whoever has a name is not removed by a walk: `namex` logs nothing and leaves the disk as it is. -/

namespace Xv6.Disk
open Function Effect Bytes Fs
variable {H K L N R R' : List Nat} {o : Nat} {s s₀ t u : Fs} {i j dp off n : Nat} {name : Name}
  {E : Panic → Fs → Prop} {f : Dinode → Dinode}

namespace Fs

/-- The root, or an inode whose number is in an entry of a directory. -/
def Named (s : Fs) (j : Nat) : Prop := j = rootIno ∨ ∃ i k, s.Alloc i ∧ (s.node i).type = tDir ∧
  direntSize * k + direntSize ≤ (s.node i).size ∧ s.inum i k = j ∧ j ≠ 0

/-- An inode that is free, or has a link or a reference. -/
def Kept (s : Fs) (j : Nat) : Prop := (s.node j).type = 0 ∨ (s.node j).nlink ≠ 0 ∨ 1 ≤ s.ref j

/-- The files, the directories, the free map and the cache are in order, and no name leads to an inode that
only waits for its last reference. -/
structure Valid (s : Fs) : Prop extends Sound s where
  linked : ∀ j, s.Named j → s.Kept j

/-- The disk is the same, and there are the references `R` more. -/
structure Borrows (R : List Nat) (s t : Fs) : Prop where
  blk : t.blk = s.blk
  logged : t.logged = s.logged
  ref : ∀ j, t.ref j = s.ref j + R.count j

theorem Borrows.refl (s : Fs) : Borrows [] s s := ⟨rfl, rfl, fun _ => rfl⟩

theorem Borrows.trans (h : Borrows R s t) (h' : Borrows R' t u) : Borrows (R' ++ R) s u where
  blk := h'.blk.trans h.blk
  logged := h'.logged.trans h.logged
  ref j := by
    rw [h'.ref, h.ref, List.count_append]
    omega

theorem Borrows.node (h : Borrows R s t) (hs : s.Sound) (ht : t.Sound) (j : Nat) : t.node j = s.node j := by
  rw [ht.node_eq_dinode, hs.node_eq_dinode]
  unfold dinode
  rw [h.blk]

/-- Names depend on the directories only. -/
theorem Named.of_same (h : t.Named j) (hs : s.Sound) (hst : Same s.Alloc s t)
    (htype : ∀ i, (t.node i).type = (s.node i).type) (hsize : ∀ i, (t.node i).size = (s.node i).size) : s.Named j := by
  obtain hroot | ⟨i, k, hi, hdir, hk, hnum, h0⟩ := h
  · exact .inl hroot
  rw [htype] at hdir
  rw [hsize] at hk
  have hi' : s.Alloc i := ⟨hi.1, by rw [← htype]; exact hi.2⟩
  refine .inr ⟨i, k, hi', hdir, hk, ?_, h0⟩
  rw [← hnum]
  exact word_congr fun m _ _ => (hs.exact.held.byte_same hst hi' m).symm

theorem Borrows.named (h : Borrows R s t) (hs : s.Sound) (ht : t.Sound) (hj : t.Named j) : s.Named j := by
  have hnode := h.node hs ht
  exact hj.of_same hs ⟨fun i _ => by rw [hnode], fun a _ => by rw [h.blk]⟩ (fun i => by rw [hnode]) fun i => by rw [hnode]

theorem Valid.borrows (h : s.Valid) (hb : Borrows R s t) (ht : t.Sound) : t.Valid := by
  refine ⟨ht, fun j hj => ?_⟩
  have hkept := h.linked j (hb.named h.toSound ht hj)
  unfold Kept at hkept ⊢
  rw [hb.node h.toSound ht, hb.ref]
  exact hkept.imp_right fun hor => hor.imp_right fun hr => Nat.le_add_right_of_le hr

/-- The reference that is given back is not the last one to an inode without links. -/
theorem Borrows.not_last (h : Borrows (i :: R) s₀ s) (hs₀ : s₀.Sound) (hs : s.Sound) (hkept : s₀.Kept i) :
    ¬(s.valid i = true ∧ (s.ip i).nlink = 0 ∧ s.ref i = 1) := by
  rintro ⟨hv, hlink, href⟩
  unfold Kept at hkept
  rw [← h.node hs₀ hs, node_eq hv] at hkept
  rcases hkept with htype | hne | hpos
  · exact hs.live i hv htype
  · exact hne hlink
  · have hcount := h.ref i
    rw [List.count_cons_self] at hcount
    omega

end Fs

/-! ### References -/

theorem count_update (h : ∀ j, t.ref j = update s.ref i (s.ref i + 1) j) (j : Nat) :
    t.ref j = s.ref j + [i].count j := by
  rw [h]
  by_cases hj : j = i
  · rw [hj, update_self, List.count_singleton_self]
  · rw [update_of_ne hj, List.count_singleton, if_neg (by simpa using Ne.symm hj), Nat.add_zero]

theorem iget_borrows : wp (iget i) s (fun _ t => Borrows [i] s t) E :=
  (wp_modify _).mpr ⟨rfl, rfl, count_update fun _ => rfl⟩

theorem idup_borrows : wp (idup i) s (fun _ t => Borrows [i] s t) E :=
  (wp_modify _).mpr ⟨rfl, rfl, count_update fun _ => rfl⟩

theorem ilock_borrows : wp (ilock i) s (fun _ t => Borrows [] s t) fun _ t => Borrows [] s t := by
  unfold ilock
  rw [wp_bind, wp_get, wp_ite]
  refine ⟨fun _ => ?_, fun _ => (wp_pure _).mpr (.refl s)⟩
  rw [wp_bind, wp_modify, wp_ite]
  exact ⟨fun _ => (wp_throw _).mpr ⟨rfl, rfl, fun _ => rfl⟩, fun _ => (wp_pure _).mpr ⟨rfl, rfl, fun _ => rfl⟩⟩

theorem iput_borrows (h : Borrows (i :: R) s₀ s) (hno : ¬(s.valid i = true ∧ (s.ip i).nlink = 0 ∧ s.ref i = 1)) :
    wp (iput i) s (fun _ t => Borrows R s₀ t) E := by
  unfold iput
  rw [wp_bind, wp_get, wp_ite]
  refine ⟨fun hlast => absurd hlast hno, fun _ => (wp_modify _).mpr ⟨h.blk, h.logged, fun j => ?_⟩⟩
  have hj := h.ref j
  dsimp only
  by_cases hji : j = i
  · subst hji
    rw [List.count_cons_self] at hj
    rw [update_self, hj]
    omega
  · rw [List.count_cons_of_ne (Ne.symm hji)] at hj
    rw [update_of_ne hji, hj]

section Walks
variable (hs₀ : s₀.Valid) (h : s.Busy o L H)
include h

theorem walk_ilock (hi : i ∈ H) (hb : Borrows R s₀ s) : wp (ilock i) s
    (fun _ t => t.Busy o (i :: L) H ∧ Borrows R s₀ t) fun _ t => t.logged = s₀.logged :=
  wp_mono (wp_and (busy_ilock h hi) ilock_borrows) (fun _ _ ht => ⟨ht.1, hb.trans ht.2⟩)
    fun _ _ he => (hb.trans he.2).logged

include hs₀ in
theorem walk_iput (hp : H.Perm (i :: K)) (hb : Borrows (i :: R) s₀ s) (hkept : s₀.Kept i) :
    wp (iput i) s (fun _ t => t.Busy o [] K ∧ Borrows R s₀ t) E :=
  wp_mono (wp_and (busy_iput h hp (by simp)) (iput_borrows hb (hb.not_last hs₀.toSound h.toSound hkept)))
    (fun _ _ ht => ht) fun _ _ he => he.2

/-! ### Lookups -/

theorem dirlookupLoop_borrows (hdp : dp ∈ L) (hdir : (s.ip dp).type = tDir) (rounds : Nat)
    (hoff : off % direntSize = 0) : wp (dirlookupLoop dp name rounds off) s
      (fun r t => Borrows (refs Prod.fst [] r) s t ∧ ∀ a ∈ r, s.Named a.1) fun _ t => t = s := by
  induction rounds generalizing off with
  | zero =>
    rw [dirlookupLoop, wp_pure]
    exact ⟨.refl s, by simp⟩
  | succ rounds ih =>
    have hv := h.valid hdp
    rw [dirlookupLoop, wp_bind, wp_get, wp_ite]
    refine ⟨fun _ => (wp_pure _).mpr ⟨.refl s, by simp⟩, fun _ => ?_⟩
    rw [wp_bind]
    apply wp_readDirent h.toSound hv hdir rfl
    intro de hle hde
    rw [wp_ite]
    refine ⟨fun hmatch => ?_, fun _ => ih (by rw [Nat.add_mod_right, hoff])⟩
    have hmul : direntSize * (off / direntSize) = off := Nat.mul_div_cancel' (Nat.dvd_of_mod_eq_zero hoff)
    have hnum : s.inum dp (off / direntSize) = word de 0 2 := by
      unfold inum
      rw [hmul]
      exact (word_window fun k hk => hde k (Nat.lt_trans hk (by decide))).symm
    refine wp_seq iget_borrows fun _ t ht => ?_
    rw [wp_pure]
    refine ⟨ht, fun a ha => ?_⟩
    obtain rfl := Option.some.inj ha
    exact .inr ⟨dp, off / direntSize, h.alloc hv, by rw [node_eq hv]; exact hdir, by rw [hmul, node_eq hv]; exact hle,
      hnum, hmatch.1⟩

theorem dirlookup_borrows (hdp : dp ∈ L) : wp (dirlookup dp name) s
    (fun r t => Found o L H dp r t ∧ Borrows (refs Prod.fst [] r) s t ∧ ∀ a ∈ r, s.Named a.1) fun _ t => t = s := by
  have hlent : wp (dirlookup dp name) s (fun r t => Borrows (refs Prod.fst [] r) s t ∧ ∀ a ∈ r, s.Named a.1)
      fun _ t => t = s := by
    unfold dirlookup
    rw [wp_bind, wp_get]
    dsimp only
    rw [wp_ite]
    refine ⟨fun _ => (wp_throw _).mpr rfl, fun hdir => ?_⟩
    exact dirlookupLoop_borrows h hdp (not_not.mp hdir) _ (Nat.zero_mod _)
  exact wp_mono (wp_and (dirlookup_found h hdp) hlent) (fun _ _ ht => ht) fun _ _ he => he.2

end Walks

/-! ### Paths -/

section Paths
variable (hs₀ : s₀.Valid)
include hs₀

theorem namexLoop_borrows (np : Bool) (names : List Name) (h : s.Busy o [] (i :: H)) (hb : Borrows [i] s₀ s)
    (hkept : s₀.Kept i) : wp (namexLoop np i names) s
      (fun r t => Walked o H Prod.fst r t ∧ Borrows (refs Prod.fst [] r) s₀ t) fun _ t => t.logged = s₀.logged := by
  induction names generalizing i s with
  | nil =>
    rw [namexLoop, wp_ite]
    refine ⟨fun _ => ?_, fun _ => (wp_pure _).mpr ⟨h, hb⟩⟩
    exact wp_seq (walk_iput hs₀ h (List.Perm.refl _) hb hkept) fun _ t ht => (wp_pure _).mpr ht
  | cons name rest ih =>
    rw [namexLoop]
    refine wp_seq (walk_ilock h List.mem_cons_self hb) fun _ t ht => ?_
    have hdrop : ∀ {u : Fs}, u.Busy o [i] (i :: H) → Borrows [i] s₀ u → wp (do iput i; return none) u
        (fun r t => Walked o H (Prod.fst (α := Nat) (β := Name)) r t ∧ Borrows (refs Prod.fst [] r) s₀ t)
        fun _ t => t.logged = s₀.logged :=
      fun hu hbu => wp_seq (walk_iput hs₀ hu (List.Perm.refl _) hbu hkept) fun _ v hv => (wp_pure _).mpr hv
    rw [wp_bind, wp_get, wp_ite]
    refine ⟨fun _ => hdrop ht.1 ht.2, fun _ => ?_⟩
    rw [wp_ite]
    refine ⟨fun _ => (wp_pure _).mpr ⟨⟨ht.1.toGood, by simp, ht.1.outstanding⟩, ht.2⟩, fun _ => ?_⟩
    refine wp_seq (wp_mono (dirlookup_borrows ht.1 List.mem_cons_self) (fun _ _ hu => hu) fun _ u he => ?_) fun r u hu => ?_
    · rw [he]
      exact ht.2.logged
    obtain ⟨hfound, hbu, hnamed⟩ := hu
    cases r with
    | none => exact hdrop hfound.1 (ht.2.trans hbu)
    | some r =>
      have hbu' : Borrows [r.1, i] s₀ u := ht.2.trans hbu
      have hswap : Borrows [i, r.1] s₀ u := ⟨hbu'.blk, hbu'.logged, fun j => by
        rw [hbu'.ref, (List.Perm.swap i r.1 []).count_eq]⟩
      dsimp only
      refine wp_seq (walk_iput hs₀ hfound.1 (List.Perm.swap ..) hswap hkept) fun _ v hv => ?_
      exact ih hv.1 hv.2 (hs₀.linked r.1 (ht.2.named hs₀.toSound ht.1.toSound (hnamed r rfl)))

theorem namex_borrows (h : s₀.Busy o [] H) (hcwd : i ∈ H) (path : Name) (np : Bool) : wp (namex i path np) s₀
    (fun r t => Walked o H Prod.fst r t ∧ Borrows (refs Prod.fst [] r) s₀ t) fun _ t => t.logged = s₀.logged := by
  unfold namex
  rw [wp_ite]
  refine ⟨fun _ => ?_, fun _ => ?_⟩
  · refine wp_seq (wp_mono (wp_and (busy_iget h (by decide)) (iget_borrows (E := fun _ _ => False))) (fun _ _ ht => ht)
      fun _ _ he => he.2.elim) fun _ t ht => ?_
    exact namexLoop_borrows hs₀ np _ ht.1 ht.2 (hs₀.linked rootIno (.inl rfl))
  · refine wp_seq (wp_mono (wp_and (busy_idup h hcwd) (idup_borrows (E := fun _ _ => False))) (fun _ _ ht => ht)
      fun _ _ he => he.2.elim) fun _ t ht => ?_
    have hpos : 1 ≤ s₀.ref i := Nat.le_trans (List.count_pos_iff.mpr hcwd) (h.owned i)
    exact namexLoop_borrows hs₀ np _ ht.1 ht.2 (.inr (.inr hpos))

theorem namei_borrows (h : s₀.Busy o [] H) (hcwd : i ∈ H) (path : Name) : wp (namei i path) s₀
    (fun r t => Walked o H id r t ∧ Borrows (refs id [] r) s₀ t) fun _ t => t.logged = s₀.logged := by
  unfold namei
  refine wp_seq (namex_borrows hs₀ h hcwd path false) fun r t ht => ?_
  rw [wp_pure]
  cases r with
  | none => exact ht
  | some r => exact ht

end Paths

end Xv6.Disk
