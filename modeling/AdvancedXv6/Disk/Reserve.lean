import AdvancedXv6.Disk.Runs
import AdvancedXv6.Disk.Touch
import AdvancedXv6.Disk.Walk

/-! Every transaction fits its reservation: it logs at most `MAXOPBLOCKS` distinct blocks, the three of the
free map among them. -/

namespace Xv6.Disk
open Function Effect Bytes Fs
variable {H K L N R l m : List Nat} {o : Nat} {s s₀ t u : Fs} {i j b dp off n : Nat} {name : Name}
  {E : Panic → Fs → Prop} {f : Dinode → Dinode}

namespace Fs

/-- In a transaction that began in `s₀` and logged blocks of `l` besides those of the free map. -/
structure Spent (s₀ : Fs) (l : List Nat) (o : Nat) (L H : List Nat) (s : Fs) : Prop extends Busy o L H s where
  logs : Logs (· ∈ l) s₀ s

theorem Spent.weaken (h : Spent s₀ l o L H s) (hsub : ∀ w ∈ l, w ∈ m) : Spent s₀ m o L H s :=
  ⟨h.toBusy, h.logs.mono hsub⟩

theorem Spent.more (h : Spent s₀ l o L H s) (b : Nat) : Spent s₀ (b :: l) o L H s :=
  h.weaken fun _ => List.mem_cons_of_mem b

theorem Spent.spends (h : Spent s₀ l o L H s) (hl : l.length ≤ 7) : Spends 7 s₀ s := h.logs.spends hl

theorem Spent.borrows (h : Spent s₀ l o L H s) (hb : Borrows R s t) (ht : t.Busy o N K) : Spent s₀ l o N K t :=
  ⟨ht, h.logs.congr hb.logged⟩

/-- `iunlock` -/
theorem Spent.unlock (h : Spent s₀ l o L H s) : Spent s₀ l o [] H s :=
  ⟨⟨h.toGood, by simp, h.outstanding⟩, h.logs⟩

/-- What `change` does. -/
structure Changes (i : Nat) (f : Dinode → Dinode) (s t : Fs) : Prop where
  logs : Logs (· = iblock i) s t
  self : t.node i = f (s.node i)
  node : ∀ j, j ≠ i → t.node j = s.node j
  blk : ∀ a, nmeta ≤ a → t.blk a = s.blk a
  ref : t.ref = s.ref

theorem Changes.fields (h : Changes i f s t)
    (hf : ∀ d, (f d).type = d.type ∧ (f d).size = d.size ∧ (f d).addrs = d.addrs) (j : Nat) :
    (t.node j).type = (s.node j).type ∧ (t.node j).size = (s.node j).size ∧ (t.node j).addrs = (s.node j).addrs := by
  by_cases hj : j = i
  · rw [hj, h.self]
    exact hf _
  · rw [h.node j hj]
    exact ⟨rfl, rfl, rfl⟩

/-- A change of the number of links of an inode that the call has a reference to. -/
theorem Valid.changed (h : s.Valid) (hc : Changes i f s t)
    (hf : ∀ d, (f d).type = d.type ∧ (f d).size = d.size ∧ (f d).addrs = d.addrs) (hi : 1 ≤ s.ref i) (ht : t.Sound) :
    t.Valid := by
  have hfields := hc.fields hf
  refine ⟨ht, fun j hj => ?_⟩
  have hkept := h.linked j (hj.of_same h.toSound ⟨fun j _ => (hfields j).2.2, hc.blk⟩ (fun j => (hfields j).1)
    fun j => (hfields j).2.1)
  unfold Kept at hkept ⊢
  rw [hc.ref]
  by_cases hji : j = i
  · exact .inr (.inr (hji ▸ hi))
  · rw [hc.node j hji]
    exact hkept

end Fs

/-! ### Inodes -/

theorem wp_changes (hi : i < ninodes) (hv : s.valid i = true) (hout : 1 ≤ s.outstanding) :
    wp (change i f) s (fun _ t => Changes i f s t) E := by
  unfold change setIp
  rw [wp_bind, wp_modify]
  refine wp_iupdate (s := s.setIp i f) hout ?_
  generalize hw : s.setIp i f = w
  have hvw : w.valid i = true := by rw [← hw]; exact hv
  have hself : w.ip i = f (s.ip i) := by rw [← hw, setIp_self]
  have hlogs : Logs (· = iblock i) s w := .of_eq (by rw [← hw]; rfl)
  refine ⟨hlogs.updated rfl, ?_, fun j hj => ?_, fun a ha => ?_, by rw [← hw]; rfl⟩
  · rw [updated_node hvw, node_eq hvw, node_eq hv, hself]
  · rw [updated_node hvw, ← hw, setIp_node hj]
  · rw [stored_blk hi (.inr (Nat.le_trans bmapstart_le.2.1 ha)), ← hw]
    rfl

theorem ialloc_logged {type : Nat} (hout : 1 ≤ s.outstanding) (hfit : type < 2 ^ 16) : wp (ialloc type) s
    (fun i t => Logs (· = iblock i) s t ∧ (t.dinode i).size = 0) fun _ t => t = s := by
  unfold ialloc
  rw [wp_bind, wp_get]
  cases (List.range' 1 (sb.ninodes - 1)).find? fun i => (s.dinode i).type = 0 with
  | none => exact (wp_throw _).mpr rfl
  | some i =>
    dsimp only
    rw [wp_bind]
    apply wp_logWrite hout
    refine wp_seq (iget_borrows (s := s.stored i (fresh type))) fun _ t ht => ?_
    rw [wp_pure]
    have hlogs : Logs (· = iblock i) s (s.stored i (fresh type)) := by
      apply Logs.setBlk (.refl _ s)
      exact .inr rfl
    refine ⟨hlogs.congr ht.logged, ?_⟩
    have hself : t.dinode i = (s.stored i (fresh type)).dinode i := by
      unfold dinode
      rw [ht.blk]
    rw [hself, stored_self (fresh_fits hfit)]
    rfl

section Inodes
variable (h : Spent s₀ l o L H s)
include h

theorem spent_ilock (hi : i ∈ H) (hl : l.length ≤ 7) : wp (ilock i) s
    (fun _ t => Spent s₀ l o (i :: L) H t ∧ Borrows [] s t) fun _ u => Spends 7 s₀ u :=
  wp_mono (wp_and (busy_ilock h.toBusy hi) ilock_borrows) (fun _ _ ht => ⟨h.borrows ht.2 ht.1, ht.2⟩)
    fun _ _ he => (h.logs.congr he.2.logged).spends hl

theorem spent_iput (hb : iblock i ∈ l) (hp : H.Perm (i :: K)) (hsub : ∀ j ∈ N, j ∈ L ∧ j ∈ K) :
    wp (iput i) s (fun _ t => Spent s₀ l o N K t) E :=
  wp_mono (iput_logged h.toBusy hp hsub) (fun _ _ ht => ⟨ht.1, h.logs.trans (ht.2.mono fun _ hw => hw ▸ hb)⟩)
    fun _ _ he => he

theorem spent_change (hi : i ∈ L) (hb : iblock i ∈ l)
    (hf : ∀ d, (f d).type = d.type ∧ (f d).size = d.size ∧ (f d).addrs = d.addrs) (hfit : ∀ d, d.Fits → (f d).Fits) :
    wp (change i f) s (fun _ t => Spent s₀ l o L H t ∧ Changes i f s t) E :=
  wp_mono (wp_and (busy_change h.toBusy hi hf hfit) (wp_changes (h.number (h.locked i hi).1) (h.valid hi) h.open_op (E := fun _ _ => False)))
    (fun _ _ ht => ⟨⟨ht.1, h.logs.trans (ht.2.logs.mono fun _ hw => hw ▸ hb)⟩, ht.2⟩) fun _ _ he => he.2.elim

theorem spent_ialloc {type : Nat} (hfit : type < 2 ^ 16) (hl : l.length ≤ 7) : wp (ialloc type) s
    (fun i t => Spent s₀ (iblock i :: l) o L (i :: H) t ∧ (t.node i).size = 0) fun _ u => Spends 7 s₀ u := by
  refine wp_mono (wp_and (busy_ialloc h.toBusy hfit) (ialloc_logged h.open_op hfit)) (fun i t ht => ?_) fun _ u he => ?_
  · refine ⟨⟨ht.1, (h.more (iblock i)).logs.trans (ht.2.1.mono fun w hw => hw ▸ List.mem_cons_self)⟩, ?_⟩
    rw [ht.1.node_eq_dinode]
    exact ht.2.2
  · rw [he.2]
    exact h.spends hl

end Inodes

/-! ### Directories -/

/-- The inode and the blocks at the places of block `bn`. -/
def entryBlocks (dp bn : Nat) (s : Fs) : List Nat := iblock dp :: (touched bn).map (s.addr dp)

theorem entryBlocks_two (dp bn : Nat) (s : Fs) : ∃ a b, ∀ w ∈ entryBlocks dp bn s, w ∈ [iblock dp, a, b] := by
  unfold entryBlocks touched
  split
  · exact ⟨s.addr dp (place bn), 0, by simp⟩
  · exact ⟨s.addr dp (place bn), s.addr dp ndirect, by simp⟩

theorem entryBlocks_one (h : n < ndirect) (dp : Nat) (s : Fs) : entryBlocks dp n s = [iblock dp, s.addr dp (place n)] := by
  unfold entryBlocks touched
  rw [if_pos h]
  rfl

theorem entryBlocks_length (dp bn : Nat) (s : Fs) : (entryBlocks dp bn s).length ≤ 3 := by
  unfold entryBlocks touched
  split
  · exact Nat.le_succ 2
  · exact Nat.le_refl 3

section Directories
variable (h : s.Busy o L H) (hdp : dp ∈ L)
include h hdp

/-- An entry that is written. -/
theorem entry_logged {src : Nat → UInt8} {dev : Bool} (hmod : off % direntSize = 0) (hoff : off < 2 ^ 32)
    (hnum : word src 0 2 < ninodes) : wp (writei dp src off direntSize dev) s (fun _ t => t.Busy o L H ∧
      (t.node dp).size ≤ max (s.node dp).size (off + direntSize) ∧ Logs (· ∈ entryBlocks dp (off / bsize) t) s t)
      fun _ u => Spends 3 s u := by
  have hv := h.valid hdp
  have hat : ∀ {t w}, At dp (Touched off direntSize) t w → w ∈ (touched (off / bsize)).map (t.addr dp) :=
    fun hw => (hw.mono fun p hp => touched_entry hmod hp).mem
  refine wp_mono (wp_and (busy_writei h hdp hoff (by decide) fun _ => ⟨hmod, rfl, hnum⟩)
    (writei_written h.toGood hv h.open_op hoff (by decide))) (fun r t ht => ⟨ht.1, ?_⟩) fun _ u he => ?_
  · obtain rfl | ⟨hw, hlogs⟩ := ht.2
    · exact ⟨Nat.le_max_left .., .refl _ t⟩
    · refine ⟨?_, hlogs.mono fun w hw => List.mem_cons.mpr (hw.imp_right hat)⟩
      rw [hw.self]
  · obtain ⟨t, hlogs, hspends⟩ := he.2
    have hlist : Logs (· ∈ (touched (off / bsize)).map (t.addr dp)) s t := hlogs.mono fun w => hat
    exact hlist.then_spends hspends (entryBlocks_length dp (off / bsize) t)

/-- If the name is there already, its inode may lose its last reference. -/
theorem dirlink_logged (hi : i < ninodes) (hsub : ∀ j ∈ L, j ∈ H) : wp (dirlink dp name i) s
    (fun r t => t.Busy o L H ∧ ((r = false ∧ ∃ j, Logs (· = iblock j) s t) ∨
      ∃ off, off ≤ (s.node dp).size ∧ (t.node dp).size ≤ max (s.node dp).size (off + direntSize) ∧
        Logs (· ∈ entryBlocks dp (off / bsize) t) s t)) fun _ u => Spends 3 s u := by
  unfold dirlink
  refine wp_seq (wp_mono (dirlookup_borrows h hdp) (fun _ _ ht => ht) fun _ _ he => .of_eq (by rw [he])) fun r t ht => ?_
  obtain ⟨hfound, hb, -⟩ := ht
  have hlogs : ∀ {P : Nat → Prop} {u}, Logs P t u → Logs P s u := fun hu => (Logs.of_eq hb.logged).trans hu
  cases r with
  | some r =>
    dsimp only
    refine wp_seq (iput_logged hfound.1 (List.Perm.refl _) fun j hj => ⟨hj, hsub j hj⟩) fun _ u hu => ?_
    exact (wp_pure _).mpr ⟨hu.1, .inl ⟨rfl, r.1, hlogs hu.2⟩⟩
  | none =>
    obtain ⟨ht, hdir⟩ := hfound
    have hmax := size_lt ht hdp
    have hcap : maxFile * bsize = 71680 := rfl
    have hnode := hb.node h.toSound ht.toSound dp
    have hsize : (t.ip dp).size = (s.node dp).size := by rw [← node_eq (ht.valid hdp), hnode]
    dsimp only
    rw [wp_bind, wp_get, wp_bind]
    refine wp_freeDirent ht hdp (.of_eq hb.logged) hdir _ (Nat.zero_mod _) (Nat.zero_le _) fun off hoff hle => ?_
    refine wp_seq (wp_mono (entry_logged ht hdp hoff (by omega) ?_) (fun _ _ hu => hu) fun _ u he => ?_) fun r u hu => ?_
    · rw [dirent_inum hi]
      exact hi
    · obtain ⟨l, hl, hu⟩ := he
      exact ⟨l, hl, hlogs hu⟩
    rw [wp_ite]
    refine ⟨fun _ => (wp_throw _).mpr ?_, fun _ => (wp_pure _).mpr ⟨hu.1, .inr ⟨off, hsize ▸ hle, ?_, hlogs hu.2.2⟩⟩⟩
    · exact (hlogs hu.2.2).spends (entryBlocks_length ..)
    · rw [← hnode]
      exact hu.2.1

end Directories

theorem Fs.Spent.entry (h : Spent s₀ l o L H s) (hb : iblock dp ∈ l) (ht : t.Busy o L H)
    (hlogs : Logs (· ∈ entryBlocks dp n t) s t) : ∃ a b, Spent s₀ (a :: b :: l) o L H t := by
  obtain ⟨a, b, hab⟩ := entryBlocks_two dp n t
  refine ⟨a, b, ht, ((h.more b).more a).logs.trans (hlogs.mono fun w hw => ?_)⟩
  have hmem := hab w hw
  simp only [List.mem_cons, List.not_mem_nil, or_false] at hmem ⊢
  obtain rfl | rfl | rfl := hmem
  · exact .inr (.inr hb)
  · exact .inl rfl
  · exact .inr (.inl rfl)

section Entries
variable (h : Spent s₀ l o L H s) (hdp : dp ∈ L) (hb : iblock dp ∈ l) (hl : l.length ≤ 4)
include h hdp hb hl

theorem spent_entry {src : Nat → UInt8} {dev : Bool} (hmod : off % direntSize = 0) (hoff : off < 2 ^ 32)
    (hnum : word src 0 2 < ninodes) : wp (writei dp src off direntSize dev) s
      (fun _ t => ∃ a b, Spent s₀ (a :: b :: l) o L H t) fun _ u => Spends 7 s₀ u := by
  refine wp_mono (entry_logged h.toBusy hdp hmod hoff hnum) (fun _ t ht => h.entry hb ht.1 ht.2.2) fun _ u he => ?_
  exact h.logs.then_spends he (by omega)

theorem spent_dirlink (hi : i < ninodes) (hsub : ∀ j ∈ L, j ∈ H) : wp (dirlink dp name i) s
    (fun _ t => ∃ a b, Spent s₀ (a :: b :: l) o L H t) fun _ u => Spends 7 s₀ u := by
  refine wp_mono (dirlink_logged h.toBusy hdp hi hsub) (fun r t ht => ?_) fun _ u he => ?_
  · obtain ⟨hbusy, ⟨-, j, hlogs⟩ | ⟨off, -, -, hlogs⟩⟩ := ht
    · exact ⟨iblock j, 0, hbusy, ((h.more 0).more (iblock j)).logs.trans (hlogs.mono fun w hw => by simp [hw])⟩
    · exact h.entry hb hbusy hlogs
  · exact h.logs.then_spends he (by omega)

/-- An entry of a directory that is small: it has no indirect block. -/
theorem spent_dirlink_small (hi : i < ninodes) (hsub : ∀ j ∈ L, j ∈ H) (hsize : (s.node dp).size < ndirect * bsize) :
    wp (dirlink dp name i) s (fun r t => ∃ a, Spent s₀ (a :: l) o L H t ∧
      (r = true → (t.node dp).size ≤ (s.node dp).size + direntSize)) fun _ u => Spends 7 s₀ u := by
  refine wp_mono (dirlink_logged h.toBusy hdp hi hsub) (fun r t ht => ?_) fun _ u he => ?_
  · obtain ⟨hbusy, ⟨rfl, j, hlogs⟩ | ⟨off, hle, hgrow, hlogs⟩⟩ := ht
    · exact ⟨iblock j, ⟨hbusy, (h.more (iblock j)).logs.trans (hlogs.mono fun w hw => by simp [hw])⟩,
        fun hf => absurd hf (by decide)⟩
    · have hblock : off / bsize < ndirect := Nat.div_lt_of_lt_mul (by rw [Nat.mul_comm]; omega)
      rw [entryBlocks_one hblock] at hlogs
      refine ⟨t.addr dp (place (off / bsize)), ⟨hbusy, (h.more _).logs.trans (hlogs.mono fun w hw => ?_)⟩, fun _ => ?_⟩
      · obtain rfl | hw := List.mem_cons.mp hw
        · exact List.mem_cons_of_mem _ hb
        · exact List.mem_cons.mpr (.inl (List.mem_singleton.mp hw))
      · exact Nat.le_trans hgrow (max_le (Nat.le_add_right ..) (Nat.add_le_add_right hle _))
  · exact h.logs.then_spends he (by omega)

end Entries

/-! ### Transactions -/

/-- What a transaction has logged when `create` returns. -/
def CreateSpent (s₀ : Fs) (o : Nat) (H : List Nat) (r : Option Nat) (t : Fs) : Prop :=
  match r with
  | none => ∃ l, l.length ≤ 6 ∧ Spent s₀ l o [] H t
  | some i => ∃ l, l.length ≤ 6 ∧ Spent s₀ l o [i] (i :: H) t

/-- An entry that `create` adds. -/
theorem wp_entry_or {α : Type} {Q : α → Fs → Prop} {P : Bool → Fs → Prop} {m : M α} {panic : Panic} {d : M Bool}
    (hd : wp d s P fun _ u => Spends 7 s₀ u) (hspends : ∀ r t, P r t → Spends 7 s₀ t)
    (hm : ∀ t, P true t → wp m t Q fun _ u => Spends 7 s₀ u) :
    wp (do
      if !(← d) then throw panic
      m) s Q fun _ u => Spends 7 s₀ u := by
  refine wp_seq hd fun r t ht => ?_
  rw [wp_ite]
  refine ⟨fun _ => (wp_throw _).mpr (hspends r t ht), fun hr => hm t ?_⟩
  cases r with
  | false => exact absurd rfl hr
  | true => exact ht

section Create
variable {cwd type major minor : Nat} (hv : s.Valid) (h : s.Busy o [] H) (hcwd : cwd ∈ H)
include hv h hcwd

theorem create_spent (path : Name) (htype : type < 2 ^ 16) :
    wp (create cwd path type major minor) s (CreateSpent s o H) fun _ u => Spends 7 s u := by
  have hstart : Spent s [] o [] H s := ⟨h, .refl _ s⟩
  unfold create nameiparent
  refine wp_seq (wp_mono (namex_borrows hv h hcwd path true) (fun _ _ ht => ht) fun _ _ he => .of_eq he) fun r t₁ ht₁ => ?_
  obtain ⟨hwalk, hb₁⟩ := ht₁
  cases r with
  | none => exact (wp_pure _).mpr ⟨[], Nat.zero_le _, hstart.borrows hb₁ hwalk⟩
  | some r =>
    obtain ⟨dp, name⟩ := r
    have h₁ : Spent s [] o [] (dp :: H) t₁ := hstart.borrows hb₁ hwalk
    dsimp only
    refine wp_seq (spent_ilock h₁ List.mem_cons_self (Nat.zero_le _)) fun _ t₂ h₂ => ?_
    refine wp_seq (wp_mono (dirlookup_borrows h₂.1.toBusy List.mem_cons_self) (fun _ _ ht => ht) fun _ _ he => ?_)
      fun r t₃ ht₃ => ?_
    · rw [he]
      exact h₂.1.spends (Nat.zero_le _)
    obtain ⟨hfound, hb₃, -⟩ := ht₃
    cases r with
    | some r =>
      obtain ⟨ip, off⟩ := r
      have h₃ : Spent s [iblock ip, iblock dp] o [dp] (ip :: dp :: H) t₃ := (h₂.1.borrows hb₃ hfound.1).weaken (by simp)
      dsimp only
      refine wp_seq (spent_iput h₃ (by simp) (List.Perm.swap ..) (N := []) (by simp)) fun _ t₄ h₄ => ?_
      refine wp_seq (spent_ilock h₄ List.mem_cons_self (by simp)) fun _ t₅ h₅ => ?_
      rw [wp_bind, wp_get, wp_ite]
      refine ⟨fun _ => (wp_pure _).mpr ⟨_, by simp, h₅.1⟩, fun _ => ?_⟩
      refine wp_seq (spent_iput h₅.1 (by simp) (List.Perm.refl _) (N := []) (by simp)) fun _ t₆ h₆ => ?_
      exact (wp_pure _).mpr ⟨_, by simp, h₆⟩
    | none =>
      have h₃ : Spent s [iblock dp] o [dp] (dp :: H) t₃ := (h₂.1.borrows hb₃ hfound.1).more _
      dsimp only
      refine wp_seq (spent_ialloc h₃ htype (by simp)) fun ip t₄ h₄ => ?_
      have hip : ip < ninodes := h₄.1.number List.mem_cons_self
      have hdp : dp < ninodes := h₄.1.number (List.mem_cons_of_mem ip List.mem_cons_self)
      refine wp_seq (spent_ilock h₄.1 List.mem_cons_self (by simp)) fun _ t₅ h₅ => ?_
      have hsub : ∀ j ∈ [ip, dp], j ∈ ip :: dp :: H := by simp
      -- the last entry, whatever was done before
      have hlast : ∀ {t l}, Spent s l o [ip, dp] (ip :: dp :: H) t → iblock dp ∈ l → l.length ≤ 4 → wp (do
          if !(← dirlink dp name ip) then throw .create
          iput dp
          return some ip) t (CreateSpent s o H) fun _ u => Spends 7 s u := by
        intro t l ht hb hl
        refine wp_entry_or (spent_dirlink ht (by simp) hb hl hip hsub) (fun _ u hu => ?_) fun t₇ h₇ => ?_
        · obtain ⟨a, b, hu⟩ := hu
          exact hu.spends (by simp only [List.length_cons]; omega)
        · obtain ⟨a, b, h₇⟩ := h₇
          refine wp_seq (spent_iput h₇ (by simp [hb]) (List.Perm.swap ..) (N := [ip]) (by simp)) fun _ t₈ h₈ => ?_
          exact (wp_pure _).mpr ⟨_, by simp only [List.length_cons]; omega, h₈⟩
      refine wp_seq (spent_change h₅.1 List.mem_cons_self List.mem_cons_self (fun _ => ⟨rfl, rfl, rfl⟩) fun d hd => ?_)
        fun _ t₆ h₆ => ?_
      · exact ⟨hd.type, Nat.mod_lt major (Nat.two_pow_pos 16), Nat.mod_lt minor (Nat.two_pow_pos 16),
          Nat.one_lt_two_pow (by decide), hd.size, hd.addrs, hd.rest⟩
      rw [wp_ite]
      refine ⟨fun hdir => ?_, fun _ => hlast h₆.1 (by simp) (by simp)⟩
      refine wp_seq (spent_change h₆.1 (by simp) (by simp) addLink_fields addLink_fits) fun _ t₇ h₇ => ?_
      -- the new directory is empty, so its entries are in its first block
      have hsize : (t₇.node ip).size = 0 := by
        rw [(h₇.2.fields addLink_fields ip).2.1, h₆.2.self, h₅.2.node h₄.1.toSound h₅.1.toSound]
        exact h₄.2
      have hfirst : ndirect * bsize = 6144 := rfl
      have hlen : direntSize = 16 := rfl
      refine wp_entry_or (spent_dirlink_small h₇.1 (by simp) (by simp) (by simp) hip hsub (by omega)) (fun _ u hu => ?_)
        fun t₈ h₈ => ?_
      · obtain ⟨a, hu, -⟩ := hu
        exact hu.spends (by simp)
      obtain ⟨a, h₈, hgrow⟩ := h₈
      have hsize₈ := hgrow rfl
      refine wp_entry_or (spent_dirlink_small h₈ (by simp) (by simp) (by simp) hdp hsub (by omega)) (fun _ u hu => ?_)
        fun t₉ h₉ => ?_
      · obtain ⟨b, hu, -⟩ := hu
        exact hu.spends (by simp)
      obtain ⟨b, h₉, -⟩ := h₉
      exact hlast h₉ (by simp) (by simp)

end Create

/-- A transaction that runs on its own. -/
theorem fits_inOp {α : Type} {m : M α} (hv : s.Valid) (h : s.Good H)
    (hm : ∀ t, t.Valid → t.Busy s.outstanding [] H → wp m t (fun _ u => Spends 7 t u) fun _ u => Spends 7 t u) :
    wp (inOp m) s (fun _ t => Fits s t) fun _ t => Fits s t := by
  unfold inOp
  rw [wp_bind, wp_modify, wp_bind]
  have hgood : Fs.Good H { s with outstanding := s.outstanding + 1 } :=
    ⟨h.same_node rfl (fun _ => rfl) h.synced h.live h.refs, h.owned⟩
  have hvalid : Fs.Valid { s with outstanding := s.outstanding + 1 } := ⟨hgood.toSound, hv.linked⟩
  refine wp_mono (hm _ hvalid ⟨hgood, by simp, rfl⟩) (fun r u hu => ?_) fun _ u hu => ?_
  · rw [wp_bind, wp_modify, wp_pure]
    obtain ⟨l, hl, hlogs⟩ := hu
    exact Spends.fits ⟨l, hl, hlogs⟩
  · obtain ⟨l, hl, hlogs⟩ := hu
    exact Spends.fits ⟨l, hl, hlogs⟩

/-- The last `iput` of a transaction. -/
theorem spends_iput {α : Type} {r : α} (h : Spent s₀ l o L (i :: H) s) (hl : l.length ≤ 6) :
    wp (do iput i; return r) s (fun _ u => Spends 7 s₀ u) fun _ u => Spends 7 s₀ u :=
  wp_seq (spent_iput (h.more (iblock i)) List.mem_cons_self (List.Perm.refl _) (N := []) (by simp))
    fun _ t ht => (wp_pure _).mpr (ht.spends (Nat.succ_le_succ hl))

theorem linkBad_spent {ip : Nat} (h : Spent s₀ l o [] (ip :: H) s) (hb : iblock ip ∈ l) (hl : l.length ≤ 6) :
    wp (linkBad ip) s (fun _ u => Spends 7 s₀ u) fun _ u => Spends 7 s₀ u := by
  unfold linkBad
  refine wp_seq (spent_ilock h List.mem_cons_self (Nat.le_succ_of_le hl)) fun _ t₁ h₁ => ?_
  refine wp_seq (spent_change h₁.1 List.mem_cons_self hb dropLink_fields dropLink_fits) fun _ t₂ h₂ => ?_
  exact spends_iput h₂.1 hl

theorem eraseEntry_spent {ip : Nat} (h : Spent s₀ l o L H s) (hdp : dp ∈ L) (hb : iblock dp ∈ l) (hl : l.length ≤ 4)
    (hmod : off % direntSize = 0) (hoff : off < 2 ^ 32) : wp (eraseEntry dp ip off) s
      (fun _ t => ∃ a b, Spent s₀ (a :: b :: l) o L H t) fun _ u => Spends 7 s₀ u := by
  unfold eraseEntry
  have hzero : word (fun _ => 0) 0 2 < ninodes := by
    rw [word_zero]
    decide
  refine wp_seq (spent_entry h hdp hb hl hmod hoff hzero) fun r t ht => ?_
  obtain ⟨a, b, ht⟩ := ht
  dsimp only
  rw [wp_ite]
  refine ⟨fun _ => (wp_throw _).mpr (ht.spends (by simp only [List.length_cons]; omega)), fun _ => ?_⟩
  rw [wp_bind, wp_get, wp_ite]
  refine ⟨fun _ => ?_, fun _ => (wp_pure _).mpr ⟨a, b, ht⟩⟩
  refine wp_mono (spent_change ht hdp (by simp [hb]) dropLink_fields dropLink_fits) (fun _ u hu => ⟨a, b, hu.1⟩)
    fun _ _ he => he

/-- A path that is walked at the beginning of a transaction. -/
theorem wp_namei_then {α : Type} {Q : α → Fs → Prop} {m : Option Nat → M α} {cwd : Nat} (hv : s.Valid)
    (h : s.Busy o [] H) (hcwd : cwd ∈ H) (path : Name)
    (hnone : ∀ t, Spent s [] o [] H t → wp (m none) t Q fun _ u => Spends 7 s u)
    (hsome : ∀ ip t, Spent s [] o [] (ip :: H) t → t.Valid → wp (m (some ip)) t Q fun _ u => Spends 7 s u) :
    wp (namei cwd path >>= m) s Q fun _ u => Spends 7 s u := by
  have hstart : Spent s [] o [] H s := ⟨h, .refl _ s⟩
  refine wp_seq (wp_mono (namei_borrows hv h hcwd path) (fun _ _ ht => ht) fun _ _ he => .of_eq he) fun r t ht => ?_
  cases r with
  | none => exact hnone t (hstart.borrows ht.2 ht.1)
  | some ip => exact hsome ip t (hstart.borrows ht.2 ht.1) (hv.borrows ht.2 ht.1.toSound)

section Calls
variable {cwd : Nat} (hv : s.Valid) (h : s.Good H) (hcwd : cwd ∈ H)
include hv h hcwd

theorem sysOpen_fits (path : Name) (omode : Nat) (full : Bool) :
    wp (sysOpen cwd path omode full) s (fun _ t => Fits s t) fun _ t => Fits s t := by
  refine fits_inOp hv h fun t₁ hv₁ h₁ => ?_
  have hfinish : ∀ {r : Option Nat} {t : Fs}, CreateSpent t₁ s.outstanding H r t → wp (do
      match r with
      | none => return none
      | some ip =>
        if full then
          iput ip
          return none
        return some ip) t (fun _ u => Spends 7 t₁ u) fun _ u => Spends 7 t₁ u := by
    intro r t ht
    cases r with
    | none =>
      obtain ⟨l, hl, ht⟩ := ht
      exact (wp_pure _).mpr (ht.spends (Nat.le_succ_of_le hl))
    | some ip =>
      obtain ⟨l, hl, ht⟩ := ht
      dsimp only
      rw [wp_ite]
      exact ⟨fun _ => spends_iput ht hl, fun _ => (wp_pure _).mpr (ht.spends (Nat.le_succ_of_le hl))⟩
  rw [wp_ite]
  refine ⟨fun _ => ?_, fun _ => ?_⟩
  · exact wp_seq (create_spent hv₁ h₁ hcwd path (by decide)) fun r t ht => hfinish ht
  · refine wp_namei_then hv₁ h₁ hcwd path (fun t₂ h₂ => hfinish (r := none) ⟨_, Nat.zero_le _, h₂⟩) fun ip t₂ h₂ _ => ?_
    refine wp_seq (spent_ilock h₂ List.mem_cons_self (Nat.zero_le _)) fun _ t₃ h₃ => ?_
    rw [wp_bind, wp_get, wp_ite]
    refine ⟨fun _ => ?_, fun _ => hfinish (r := some ip) ⟨_, Nat.zero_le _, h₃.1⟩⟩
    refine wp_seq (spent_iput (h₃.1.more (iblock ip)) List.mem_cons_self (List.Perm.refl _) (N := []) (by simp))
      fun _ t₄ h₄ => ?_
    exact hfinish (r := none) ⟨_, by simp, h₄⟩

theorem sysMake_fits {type major minor : Nat} (path : Name) (htype : type < 2 ^ 16) :
    wp (sysMake cwd path type major minor) s (fun _ t => Fits s t) fun _ t => Fits s t := by
  refine fits_inOp hv h fun t₁ hv₁ h₁ => ?_
  refine wp_seq (create_spent hv₁ h₁ hcwd path htype) fun r t₂ h₂ => ?_
  cases r with
  | none =>
    obtain ⟨l, hl, h₂⟩ := h₂
    exact (wp_pure _).mpr (h₂.spends (Nat.le_succ_of_le hl))
  | some ip =>
    obtain ⟨l, hl, h₂⟩ := h₂
    exact spends_iput h₂ hl

theorem sysLink_fits (old new : Name) :
    wp (sysLink cwd old new) s (fun _ t => Fits s t) fun _ t => Fits s t := by
  refine fits_inOp hv h fun t₁ hv₁ h₁ => ?_
  refine wp_namei_then hv₁ h₁ hcwd old (fun t₂ h₂ => (wp_pure _).mpr (h₂.spends (Nat.zero_le _))) fun ip t₂ h₂ hv₂ => ?_
  refine wp_seq (spent_ilock h₂ List.mem_cons_self (Nat.zero_le _)) fun _ t₃ h₃ => ?_
  rw [wp_bind, wp_get, wp_ite]
  refine ⟨fun _ => spends_iput h₃.1 (Nat.zero_le _), fun _ => ?_⟩
  have hv₃ : t₃.Valid := hv₂.borrows h₃.2 h₃.1.toSound
  refine wp_seq (spent_change (h₃.1.more (iblock ip)) List.mem_cons_self List.mem_cons_self addLink_fields addLink_fits)
    fun _ t₄ h₄ => ?_
  have hpos : 1 ≤ t₃.ref ip := Nat.le_trans (List.count_pos_iff.mpr List.mem_cons_self) (h₃.1.owned ip)
  have hv₄ : t₄.Valid := hv₃.changed h₄.2 addLink_fields hpos h₄.1.toSound
  have h₄' := h₄.1.unlock
  refine wp_seq (wp_mono (namex_borrows hv₄ h₄'.toBusy (List.mem_cons_of_mem ip hcwd) new true) (fun _ _ ht => ht)
    fun _ _ he => (h₄'.logs.congr he).spends (by simp)) fun r t₅ ht₅ => ?_
  obtain ⟨hwalk, hb₅⟩ := ht₅
  cases r with
  | none => exact linkBad_spent (h₄'.borrows hb₅ hwalk) List.mem_cons_self (by simp)
  | some r =>
    obtain ⟨dp, name⟩ := r
    have h₅ : Spent t₁ [iblock dp, iblock ip] s.outstanding [] (dp :: ip :: H) t₅ := (h₄'.borrows hb₅ hwalk).more _
    refine wp_seq (spent_ilock h₅ List.mem_cons_self (by simp)) fun _ t₆ h₆ => ?_
    have hip : ip < ninodes := h₆.1.number (List.mem_cons_of_mem _ List.mem_cons_self)
    refine wp_seq (spent_dirlink h₆.1 List.mem_cons_self List.mem_cons_self (by simp) hip (by simp)) fun r t₇ h₇ => ?_
    obtain ⟨a, b, h₇⟩ := h₇
    have hput : wp (iput dp) t₇ (fun _ t => Spent t₁ [a, b, iblock dp, iblock ip] s.outstanding [] (ip :: H) t)
        fun _ u => Spends 7 t₁ u :=
      spent_iput h₇ (by simp) (List.Perm.refl _) (by simp)
    rw [wp_ite]
    refine ⟨fun _ => wp_seq hput fun _ t₈ h₈ => linkBad_spent h₈ (by simp) (by simp), fun _ => ?_⟩
    exact wp_seq hput fun _ t₈ h₈ => spends_iput h₈ (by simp)

theorem sysUnlink_fits (path : Name) : wp (sysUnlink cwd path) s (fun _ t => Fits s t) fun _ t => Fits s t := by
  refine fits_inOp hv h fun t₁ hv₁ h₁ => ?_
  have hstart : Spent t₁ [] s.outstanding [] H t₁ := ⟨h₁, .refl _ t₁⟩
  refine wp_seq (wp_mono (namex_borrows hv₁ h₁ hcwd path true) (fun _ _ ht => ht) fun _ _ he => .of_eq he)
    fun r t₂ ht₂ => ?_
  obtain ⟨hwalk, hb₂⟩ := ht₂
  cases r with
  | none => exact (wp_pure _).mpr (.of_eq hb₂.logged)
  | some r =>
    obtain ⟨dp, name⟩ := r
    have h₂ : Spent t₁ [] s.outstanding [] (dp :: H) t₂ := hstart.borrows hb₂ hwalk
    refine wp_seq (spent_ilock h₂ List.mem_cons_self (Nat.zero_le _)) fun _ t₃ h₃ => ?_
    rw [wp_ite]
    refine ⟨fun _ => spends_iput h₃.1 (Nat.zero_le _), fun _ => ?_⟩
    refine wp_seq (wp_mono (dirlookup_borrows h₃.1.toBusy List.mem_cons_self) (fun _ _ ht => ht) fun _ _ he => ?_)
      fun r t₄ ht₄ => ?_
    · rw [he]
      exact h₃.1.spends (Nat.zero_le _)
    obtain ⟨hfound, hb₄, -⟩ := ht₄
    cases r with
    | none => exact spends_iput (h₃.1.borrows hb₄ hfound.1) (Nat.zero_le _)
    | some r =>
      obtain ⟨ip, off⟩ := r
      obtain ⟨hbusy, hmod, hoff⟩ := hfound
      have h₄ : Spent t₁ [iblock ip, iblock dp] s.outstanding [dp] (ip :: dp :: H) t₄ :=
        (h₃.1.borrows hb₄ hbusy).weaken (by simp)
      refine wp_seq (spent_ilock h₄ List.mem_cons_self (by simp)) fun _ t₅ h₅ => ?_
      have hip : ip ∈ [ip, dp] := List.mem_cons_self
      have hdp : dp ∈ [ip, dp] := List.mem_cons_of_mem ip List.mem_cons_self
      refine wp_seq (wp_removable (fun _ _ => h₅.1.spends (by simp)) h₅.1.toBusy hip fun r => h₅.1) fun r t₆ h₆ => ?_
      rw [wp_ite]
      refine ⟨fun _ => ?_, fun _ => ?_⟩
      · refine wp_seq (spent_iput h₆ (by simp) (List.Perm.refl _) (N := [dp]) (by simp)) fun _ t₇ h₇ => ?_
        exact spends_iput h₇ (by simp)
      refine wp_seq (eraseEntry_spent h₆ hdp (by simp) (by simp) hmod hoff) fun _ t₇ h₇ => ?_
      obtain ⟨a, b, h₇⟩ := h₇
      refine wp_seq (spent_iput h₇ (by simp) (List.Perm.swap ..) (N := [ip]) (by simp)) fun _ t₈ h₈ => ?_
      refine wp_seq (spent_change h₈ List.mem_cons_self (by simp) dropLink_fields dropLink_fits) fun _ t₉ h₉ => ?_
      exact spends_iput h₉.1 (by simp)

theorem exec_fits (path : Name) (reads : List (Nat × Nat)) (hreads : ∀ r ∈ reads, r.2 < 2 ^ 32) :
    wp (exec cwd path reads) s (fun _ t => Fits s t) fun _ t => Fits s t := by
  refine fits_inOp hv h fun t₁ hv₁ h₁ => ?_
  refine wp_namei_then hv₁ h₁ hcwd path (fun t₂ h₂ => (wp_pure _).mpr (h₂.spends (Nat.zero_le _))) fun ip t₂ h₂ _ => ?_
  refine wp_seq (spent_ilock h₂ List.mem_cons_self (Nat.zero_le _)) fun _ t₃ h₃ => ?_
  refine wp_seq (wp_forEach (I := fun rs t => Spent t₁ [] s.outstanding [ip] (ip :: H) t ∧ ∀ r ∈ rs, r.2 < 2 ^ 32)
    (fun r rs t ht => ?_) reads ⟨h₃.1, hreads⟩) fun _ t₄ h₄ => ?_
  · have hrest : Spent t₁ [] s.outstanding [ip] (ip :: H) t ∧ ∀ r ∈ rs, r.2 < 2 ^ 32 :=
      ⟨ht.1, fun r hr => ht.2 r (List.mem_cons_of_mem _ hr)⟩
    rw [wp_bind]
    refine wp_readi_sound ht.1.toSound (ht.1.valid List.mem_cons_self) (ht.2 r List.mem_cons_self) (fun _ => ?_) ?_
      fun _ => ?_
    · exact (wp_pure _).mpr hrest
    · exact (wp_pure _).mpr hrest
    · exact (wp_pure _).mpr hrest
  · refine wp_mono (spent_iput (h₄.1.more (iblock ip)) List.mem_cons_self (List.Perm.refl _) (N := []) (by simp))
      (fun _ _ hu => hu.spends (by simp)) fun _ _ he => he

theorem sysChdir_fits (path : Name) : wp (sysChdir cwd path) s (fun _ t => Fits s t) fun _ t => Fits s t := by
  refine fits_inOp hv h fun t₁ hv₁ h₁ => ?_
  refine wp_namei_then hv₁ h₁ hcwd path (fun t₂ h₂ => (wp_pure _).mpr (h₂.spends (Nat.zero_le _))) fun ip t₂ h₂ _ => ?_
  refine wp_seq (spent_ilock h₂ List.mem_cons_self (Nat.zero_le _)) fun _ t₃ h₃ => ?_
  rw [wp_bind, wp_get, wp_ite]
  refine ⟨fun _ => spends_iput h₃.1 (Nat.zero_le _), fun _ => ?_⟩
  have hperm := List.perm_cons_erase (List.mem_cons_of_mem ip hcwd)
  exact wp_seq (spent_iput (h₃.1.more (iblock cwd)) List.mem_cons_self hperm (N := []) (by simp))
    fun _ t₄ h₄ => (wp_pure _).mpr (h₄.spends (by simp))

/-- The last `close` of a file, and `exit` -/
theorem put_fits : wp (inOp (iput cwd)) s (fun _ t => Fits s t) fun _ t => Fits s t := by
  refine fits_inOp hv h fun t₁ hv₁ h₁ => ?_
  have hstart : Spent t₁ [iblock cwd] s.outstanding [] H t₁ := ⟨h₁, .refl _ t₁⟩
  exact wp_mono (spent_iput hstart List.mem_cons_self (List.perm_cons_erase hcwd) (N := []) (by simp))
    (fun _ _ hu => hu.spends (by simp)) fun _ _ he => he

theorem filewrite_fits {src : Nat → UInt8} {dev : Bool} (hoff : off < 2 ^ 32) (hn : n ≤ maxWrite) :
    wp (filewrite cwd src off n dev) s (fun _ t => Fits s t) fun _ t => Fits s t := by
  refine fits_inOp hv h fun t₁ hv₁ h₁ => ?_
  have hstart : Spent t₁ [] s.outstanding [] H t₁ := ⟨h₁, .refl _ t₁⟩
  refine wp_seq (spent_ilock hstart hcwd (Nat.zero_le _)) fun _ t₂ h₂ => ?_
  rw [wp_bind, wp_get, wp_ite]
  refine ⟨fun _ => (wp_pure _).mpr (h₂.1.spends (Nat.zero_le _)), fun _ => ?_⟩
  have hall : ∀ {u}, Spends 7 t₂ u → Spends 7 t₁ u := fun hu => h₂.1.logs.then_spends hu (Nat.le_refl 7)
  exact wp_mono (writei_spends h₂.1.toGood (h₂.1.valid List.mem_cons_self) h₂.1.open_op hoff hn) (fun _ _ hu => hall hu)
    fun _ _ he => hall he

end Calls

/-! ### Calls -/

/-- `filewrite` makes a transaction for each part of a write. -/
def Op.part : Op → Op
  | .write i src off n io => .write i src off (if n.toNat ≤ maxWrite then n else UInt32.ofNat maxWrite) io
  | op => op

/-- A transaction that runs on its own logs at most `MAXOPBLOCKS` distinct blocks, also when the kernel panics. -/
theorem ops_fit (h : s.Valid) (op : Op) (hen : op.enabled s) :
    wp op.part.run s (fun _ t => Fits s t) fun _ t => Fits s t := by
  have hone : ∀ {i}, 1 ≤ s.ref i → s.Good [i] := by
    intro i hi
    refine ⟨h.toSound, fun j => ?_⟩
    by_cases hji : j = i
    · rw [hji, List.count_singleton_self]
      exact hi
    · rw [List.count_singleton, if_neg (by simpa using Ne.symm hji)]
      exact Nat.zero_le _
  have hcwd : ∀ {i : Nat}, i ∈ [i] := List.mem_singleton_self _
  -- calls outside of transactions
  have hquiet : ∀ {t}, t.logged = s.logged → Fits s t := fun ht => ⟨[], ht, Nat.zero_le _⟩
  cases op with
  | userinit => exact wp_mono (iget_borrows (E := fun _ _ => False)) (fun _ _ ht => hquiet ht.logged) fun _ _ he => he.elim
  | «open» cwd path omode full => exact (wp_map _ _).mpr (sysOpen_fits h (hone (hen cwd rfl)) hcwd path omode full)
  | mkdir cwd path => exact (wp_map _ _).mpr (sysMake_fits h (hone (hen cwd rfl)) hcwd path (by decide))
  | mknod cwd path major minor => exact (wp_map _ _).mpr (sysMake_fits h (hone (hen cwd rfl)) hcwd path (by decide))
  | link cwd old new => exact (wp_map _ _).mpr (sysLink_fits h (hone (hen cwd rfl)) hcwd old new)
  | unlink cwd path => exact (wp_map _ _).mpr (sysUnlink_fits h (hone (hen cwd rfl)) hcwd path)
  | chdir cwd path => exact (wp_map _ _).mpr (sysChdir_fits h (hone (hen cwd rfl)) hcwd path)
  | exec cwd path reads =>
    refine exec_fits h (hone (hen cwd rfl)) hcwd path _ fun r hr => ?_
    obtain ⟨r', -, rfl⟩ := List.mem_map.mp hr
    exact r'.2.toNat_lt
  | fork cwd => exact wp_mono (idup_borrows (E := fun _ _ => False)) (fun _ _ ht => hquiet ht.logged) fun _ _ he => he.elim
  | put i => exact put_fits h (hone (hen i rfl)) hcwd
  | fstat i => exact wp_mono ilock_borrows (fun _ _ ht => hquiet ht.logged) fun _ _ he => hquiet he.logged
  | read i off n io =>
    refine (wp_map _ _).mpr ?_
    have hgood := hone (hen i rfl)
    unfold fileread
    refine wp_seq (wp_mono (wp_and (wp_ilock hgood (hgood.number hcwd)) ilock_borrows) (fun _ _ ht => ht)
      fun _ _ he => hquiet he.2.logged) fun _ t ht => ?_
    have hdone : Fits s t := hquiet ht.2.logged
    exact wp_readi_sound ht.1.1.toSound ht.1.2.2 n.toNat_lt (fun _ => hdone) hdone fun _ => hdone
  | write i src off n io =>
    refine (wp_map _ _).mpr (filewrite_fits h (hone (hen i rfl)) hcwd off.toNat_lt ?_)
    split
    · exact ‹_›
    · exact Nat.le_of_eq rfl

theorem entryTo_valid : (entryTo 2).Valid := by
  refine ⟨(entryTo_cold 2).sound (entryTo_exact 2) (entryTo_dense 2) entryTo_names, fun j hj => .inr (.inl ?_)⟩
  have hlinks : ((entryTo 2).node 1).nlink ≠ 0 ∧ ((entryTo 2).node 2).nlink ≠ 0 := by decide
  obtain rfl | ⟨i, k, hi, hdir, hk, hnum, h0⟩ := hj
  · exact hlinks.1
  obtain ⟨rfl, hsize⟩ := (entryTo_fields 2 hi.1).2.1 hdir
  have hzero : k = 0 := by
    rw [hsize] at hk
    change 16 * k + 16 ≤ 16 at hk
    omega
  have htwo : (entryTo 2).inum 1 0 = 2 := by decide
  rw [← hnum, hzero, htwo]
  exact hlinks.2

/-- The file that is removed loses its block and its inode. -/
theorem ops_fit_removed : ∃ t, step (entryTo 2) .userinit = some t ∧
    wp (Op.unlink 1 [97]).part.run t (fun _ u => Fits t u) fun _ u => Fits t u := by
  obtain ⟨t, ht⟩ : ∃ t, step (entryTo 2) .userinit = some t := ⟨_, rfl⟩
  refine ⟨t, ht, ops_fit (entryTo_valid.borrows (R := [rootIno]) ?_ (step_sound entryTo_valid.toSound ht).1) _ ?_⟩
  · obtain rfl := Option.some.inj ht
    exact (wp_modify _).mp (iget_borrows (E := fun _ _ => False))
  · obtain rfl := Option.some.inj ht
    decide

end Xv6.Disk
