import AdvancedXv6.Files.Linked

/-! Where a path leads, and that a walk along a path frees no inode. -/

namespace Xv6.Files
open Function Effect

variable {v : Version} {c : Option Nat} {H H' G L : List Nat} {k t u : Kernel} {i j dp n inum : Nat}

/-- The inode that a path leads to, or its parent and the last element. -/
def Disk.lookup (D : Disk) (nameiparent : Bool) : Nat → List Name → Option (Nat × Name)
  | n, [] => if nameiparent then none else some (n, [])
  | n, name :: rest =>
    if D.type n ≠ .dir then none
    else if nameiparent ∧ rest = [] then some (n, name)
    else match (D.entries n).find? fun e => decide (e.inum ≠ 0 ∧ e.name = name) with
      | none => none
      | some e => D.lookup nameiparent e.inum rest

/-- The inode that the path starts from. -/
def Kernel.start (k : Kernel) (path : Name) : Nat :=
  if path.head? = some slash then rootIno else (k.inode k.proc.cwd).inum

def Kernel.leads (k : Kernel) (path : Name) (nameiparent : Bool) : Option (Nat × Name) :=
  k.disk.lookup nameiparent (k.start path) (elements path.length path)

/-- A lookup does not depend on the link counts. -/
theorem Disk.lookup_setNlink (D : Disk) (m : Nat) (v : Int) (np : Bool) (n : Nat) (names : List Name) :
    (D.setNlink m v).lookup np n names = D.lookup np n names := by
  induction names generalizing n with
  | nil => rfl
  | cons name rest ih =>
    rw [lookup, lookup]
    refine if_congr Iff.rfl rfl (if_congr Iff.rfl rfl ?_)
    change (match (D.entries n).find? _ with | none => none | some e => (D.setNlink m v).lookup np e.inum rest) = _
    cases (D.entries n).find? fun e => decide (e.inum ≠ 0 ∧ e.name = name) with
    | none => rfl
    | some e => exact ih e.inum

/-- The reference to the entry is not the last one, or the inode has links. -/
def Kernel.Firm (k : Kernel) (i : Nat) : Prop :=
  k.disk.type (k.inode i).inum ≠ .free → k.disk.nlink (k.inode i).inum ≠ 0 ∨ 2 ≤ (k.inode i).ref

/-- The entry with one reference less, unlocked. -/
def Kernel.lowered (k : Kernel) (i : Nat) : Kernel :=
  k.setInode i fun n => { n with locked := false, ref := n.ref - 1 }

theorem Kernel.Firm.not_unused (hf : k.Firm i) (h : Cached none (i :: H) G L k) : ¬k.Unused i := by
  have hlt := h.inv.held i List.mem_cons_self
  have hpos := h.inv.pos_of_held List.mem_cons_self
  rintro ⟨hvalid, hzero, hone⟩
  obtain ⟨htype, -, hfree⟩ := h.inv.cached i hlt hpos hvalid
  rcases hf fun ht => hfree (htype.trans ht) with hl | hl
  · exact hl ((h.copy i hlt hpos hvalid).symm.trans hzero)
  · omega

/-- A steady property of states in which the inodes without links are known. -/
structure Firmly (J : List Nat → List Nat → List Nat → Kernel → Prop) : Prop extends Steady .a3 J where
  cached : ∀ {H G L k}, J H G L k → Cached none H G L k

theorem firmly_linked (c : Option Nat) : Firmly (Linked c) := ⟨steady_linked c, fun h => h.toCached⟩

theorem firmly_cached : Firmly (Cached none) := ⟨steady_cached none, fun h => h⟩

/-- What `iget` gives. -/
structure Fetched (k : Kernel) (i inum : Nat) (t : Kernel) : Prop where
  self : (t.inode i).inum = inum
  disk : t.disk = k.disk
  proc : t.proc = k.proc
  other : ∀ j ≠ i, t.inode j = k.inode j
  same : 0 < (k.inode i).ref → t.inode i = { k.inode i with ref := (k.inode i).ref + 1 }
  firm : t.Firm i

theorem Fetched.inum_eq (h : Fetched k i inum t) (hpos : 0 < (k.inode j).ref) :
    (t.inode j).inum = (k.inode j).inum := by
  by_cases hj : j = i
  · subst hj
    rw [h.same hpos]
  · rw [h.other j hj]

theorem find_of_findIdx {α : Type} {p : α → Bool} {xs : List α} (h : xs.findIdx? p = some n) :
    ∃ x, xs[n]? = some x ∧ xs.find? p = some x ∧ p x = true := by
  obtain ⟨hn, hp, hlt⟩ := List.findIdx?_eq_some_iff_getElem.mp h
  refine ⟨xs[n], List.getElem?_eq_getElem hn, List.find?_eq_some_iff_getElem.mpr ⟨hp, n, hn, rfl, fun j hj => ?_⟩, hp⟩
  simpa using hlt j hj

/-- The entries in `H`, and that of the current directory, are for the inodes that they have been for,
and nothing on the disk changes. -/
structure Calm (H : List Nat) (k t : Kernel) : Prop where
  disk : t.disk = k.disk
  proc : t.proc = k.proc
  inum : ∀ j, j ∈ H ∨ j = k.proc.cwd → (t.inode j).inum = (k.inode j).inum

theorem Calm.trans {w : Kernel} (h : Calm H k t) (h' : Calm H t w) : Calm H k w := by
  refine ⟨h'.disk.trans h.disk, h'.proc.trans h.proc, fun j hj => ?_⟩
  refine (h'.inum j ?_).trans (h.inum j hj)
  rw [h.proc]
  exact hj

theorem Calm.start (h : Calm H k t) (path : Name) : t.start path = k.start path := by
  rw [Kernel.start, Kernel.start, h.proc, h.inum _ (.inr rfl)]

theorem Calm.leads (h : Calm H k t) (path : Name) (np : Bool) : t.leads path np = k.leads path np := by
  rw [Kernel.leads, Kernel.leads, h.disk, h.start]

theorem Same.calm (h : Same k t) (H : List Nat) : Calm H k t :=
  ⟨h.disk, h.proc, fun j _ => by rw [h.inode]⟩

/-- A change of an entry that leaves the number of its inode. -/
theorem calm_setInode (k : Kernel) (i : Nat) {f : Inode → Inode} (hf : ∀ n, (f n).inum = n.inum) (H : List Nat) :
    Calm H k (k.setInode i f) := by
  refine ⟨rfl, rfl, fun j _ => ?_⟩
  by_cases hj : j = i
  · rw [hj, Kernel.setInode_self, hf]
  · rw [Kernel.setInode_of_ne hj]

theorem calm_lowered (k : Kernel) (i : Nat) (H : List Nat) : Calm H k (k.lowered i) :=
  calm_setInode k i (f := fun n => { n with locked := false, ref := n.ref - 1 }) (fun _ => rfl) H

theorem calm_locked (k : Kernel) (i : Nat) (H : List Nat) : Calm H k (k.lockedAt i) :=
  calm_setInode k i (f := fun n =>
    { n with locked := true, valid := true, copy := if n.valid then n.copy else k.dinode n.inum }) (fun _ => rfl) H

theorem calm_unlocked (k : Kernel) (i : Nat) (H : List Nat) : Calm H k (k.unlockedAt i) :=
  calm_setInode k i (f := fun n => { n with locked := false }) (fun _ => rfl) H

theorem Fetched.calm (h : Fetched k i inum t) (hk : Inv v H' G L k) (hH : H ⊆ H') : Calm H k t := by
  refine ⟨h.disk, h.proc, fun j hj => h.inum_eq ?_⟩
  rcases hj with hj | rfl
  · exact hk.pos_of_held (hH hj)
  · exact (hk.cwd_pos List.mem_cons_self).2

/-- The inode that the path leads to. -/
def Kernel.finds (k : Kernel) (path : Name) : Option Nat := (k.leads path false).map Prod.fst

section Firmly
variable {J : List Nat → List Nat → List Nat → Kernel → Prop} (hJ : Firmly J)
include hJ

theorem iput_firm (h : J (i :: H) G L k) (hf : k.Firm i) :
    Ends (iput i) k fun _ t => J H G L t ∧ t = k.lowered i := by
  refine (iput_spec hJ.toSteady h).mono fun _ t ht => ⟨ht.1, ?_⟩
  rw [ht.2, Kernel.dropped_kept (hf.not_unused (hJ.cached h)), Kernel.lowered]

theorem iunlockput_firm (h : J (i :: H) G (i :: L) k) (hi : i ∉ L) (hf : k.Firm i) :
    Ends (iunlockput i) k fun _ t => J H G L t ∧ t = k.lowered i := by
  refine (iunlock_spec hJ.toSteady h List.mem_cons_self (mem_locks hi)).bind fun _ t ht => ?_
  obtain ⟨ht, rfl⟩ := ht
  have hself : (k.unlockedAt i).inode i = { k.inode i with locked := false } := k.setInode_self ..
  have hf : (k.unlockedAt i).Firm i := by
    rw [Kernel.Firm, hself]
    exact hf
  refine (iput_firm hJ ht hf).mono fun _ u hu => ⟨hu.1, ?_⟩
  rw [hu.2, Kernel.lowered, Kernel.unlockedAt, Kernel.setInode_setInode]
  rfl

theorem iget_firm (h : J H G L k) (inum : Nat) : Ends (iget rootDev inum) k fun i t =>
    J (i :: H) G L t ∧ Fetched k i inum t := by
  refine (iget_state k rootDev inum).mono fun i t hi => ?_
  obtain ⟨hi, ⟨rfl, hpos, hinum⟩ | ⟨rfl, hzero, hnew⟩⟩ := hi
  · have hself : (k.grabbed i).inode i = { k.inode i with ref := (k.inode i).ref + 1 } := k.setInode_self ..
    refine ⟨hJ.toSteady.grab h hi hpos, ?_, rfl, rfl, fun j hj => Kernel.setInode_of_ne hj ..,
      fun _ => hself, fun _ => .inr ?_⟩
    · rw [hself]
      exact hinum
    · rw [hself]
      dsimp only
      omega
  · have hself : (k.setInode i fun n => { n with dev := rootDev, inum, ref := 1, valid := false }).inode i =
        { k.inode i with dev := rootDev, inum := inum, ref := 1, valid := false } := k.setInode_self ..
    have hnew : ∀ j < ninode, 0 < (k.inode j).ref → (k.inode j).inum ≠ inum :=
      fun j hj hpos => hnew j hj hpos ((hJ.inv h).dev j hj hpos)
    refine ⟨hJ.toSteady.recycle h hi hzero hnew, ?_, rfl, rfl, fun j hj => Kernel.setInode_of_ne hj ..,
      fun hpos => absurd hzero (Int.ne_of_gt hpos), fun hfree => .inl fun hlinks => ?_⟩
    · rw [hself]
    · rw [hself] at hfree hlinks
      obtain ⟨j, hj, hpos, hjn⟩ := (hJ.cached h).kept inum hfree hlinks (by simp)
      exact hnew j hj hpos hjn

/-- What `dirlookup` finds. -/
theorem dirlookup_firm (h : J H G L k) (hdp : dp ∈ L) (name : Name) :
    Ends (dirlookup dp name) k fun r t => k.disk.type (k.inode dp).inum = .dir ∧ match r with
      | none => Same k t ∧ ((k.disk.entries (k.inode dp).inum).find? fun e =>
          decide (e.inum ≠ 0 ∧ e.name = name)) = none
      | some (i, n) => J (i :: H) G L t ∧ ∃ e, (k.disk.entries (k.inode dp).inum)[n]? = some e ∧
          ((k.disk.entries (k.inode dp).inum).find? fun e => decide (e.inum ≠ 0 ∧ e.name = name)) = some e ∧
          e.inum ≠ 0 ∧ e.name = name ∧ Fetched k i e.inum t := by
  obtain ⟨hlt, hvalid, hpos⟩ := (hJ.inv h).lock dp hdp
  obtain ⟨htype, -, -⟩ := (hJ.inv h).cached dp hlt hpos hvalid
  have hdev := (hJ.inv h).dev dp hlt hpos
  rw [dirlookup, ends_get_bind]
  refine .ite (fun _ => .throw _) fun hdir => ?_
  have hdir : k.disk.type (k.inode dp).inum = .dir := htype.symm.trans (not_not.mp hdir)
  dsimp only
  split
  · rename_i hnone
    refine (bmapTo_spec k _ _).bind fun _ t ht => .pure ⟨hdir, ht, ?_⟩
    exact List.find?_eq_none.mpr fun e he => by simpa using List.findIdx?_eq_none_iff.mp hnone e he
  · rename_i n hfind
    obtain ⟨e, hn, he, hp⟩ := find_of_findIdx hfind
    have hget : (k.data (k.inode dp).inum).entries.getD n ⟨0, []⟩ = e := by
      rw [List.getD_eq_getElem?_getD, hn]
      rfl
    refine (bmapTo_spec k _ _).bind fun _ u hu => ?_
    rw [hdev, hget]
    refine (iget_firm hJ (hJ.toSteady.same h hu) e.inum).bind fun i t ht => .pure ⟨hdir, ht.1, e, hn, he, ?_⟩
    have hp := of_decide_eq_true hp
    refine ⟨hp.1, hp.2, ht.2.self, ht.2.disk.trans hu.disk, ht.2.proc.trans hu.proc, fun j hj => ?_, fun hpos => ?_,
      ht.2.firm⟩
    · rw [ht.2.other j hj, hu.inode]
    · rw [← hu.inode] at hpos ⊢
      exact ht.2.same hpos

/-- The loop of `namex` goes where the path leads. -/
theorem namexLoop_walk (np : Bool) (names : List Name) (h : J (i :: H) G L k) (hf : k.Firm i) :
    Ends (namexLoop np i names) k fun r t => Calm H k t ∧
      r.map (fun r => ((t.inode r.1).inum, r.2)) = k.disk.lookup np (k.inode i).inum names ∧ match r with
        | none => J H G L t
        | some r => J (r.1 :: H) G L t := by
  induction names generalizing i k with
  | nil =>
    rw [namexLoop]
    refine .ite (fun hnp => ?_) fun hnp => ?_
    · refine (iput_firm hJ h hf).bind fun _ t ht => .pure ⟨?_, (if_pos hnp).symm, ht.1⟩
      rw [ht.2]
      exact calm_lowered k i H
    · exact .pure ⟨(Same.refl k).calm H, (if_neg hnp).symm, h⟩
  | cons name names ih =>
    rw [namexLoop]
    refine (ilock_spec hJ.toSteady h ((hJ.inv h).held i List.mem_cons_self)).bind fun _ t ht => ?_
    obtain ⟨ht, hi, rfl⟩ := ht
    have hself : ((k.lockedAt i).inode i).inum = (k.inode i).inum := by rw [Kernel.lockedAt, Kernel.setInode_self]
    have href : ((k.lockedAt i).inode i).ref = (k.inode i).ref := by rw [Kernel.lockedAt, Kernel.setInode_self]
    have hcalm := calm_locked k i H
    have hdisk : (k.lockedAt i).disk = k.disk := rfl
    have hf : (k.lockedAt i).Firm i := by
      rw [Kernel.Firm, hself, href]
      exact hf
    rw [← hself, ← hdisk]
    generalize k.lockedAt i = t at *
    obtain ⟨hlt, hvalid, hpos⟩ := (hJ.inv ht).lock i List.mem_cons_self
    obtain ⟨htype, -, -⟩ := (hJ.inv ht).cached i hlt hpos hvalid
    rw [ends_get_bind, Disk.lookup]
    refine .ite (fun hdir => ?_) fun hdir => ?_
    · have hdir : t.disk.type (t.inode i).inum ≠ .dir := fun hd => hdir (htype.trans hd)
      refine (iunlockput_firm hJ ht hi hf).bind fun _ u hu => .pure ⟨?_, (if_pos hdir).symm, hu.1⟩
      rw [hu.2]
      exact hcalm.trans (calm_lowered t i H)
    have hdir : ¬t.disk.type (t.inode i).inum ≠ .dir := fun hd => hd (htype.symm.trans (not_not.mp hdir))
    rw [if_neg hdir]
    refine .ite (fun hlast => ?_) fun hlast => ?_
    · refine (iunlock_spec hJ.toSteady ht List.mem_cons_self (mem_locks hi)).bind fun _ u hu => .pure ?_
      obtain ⟨hu, rfl⟩ := hu
      refine ⟨hcalm.trans (calm_unlocked t i H), ?_, hu⟩
      rw [if_pos hlast, Option.map_some, Kernel.unlockedAt, Kernel.setInode_self]
    rw [if_neg hlast]
    refine (dirlookup_firm hJ ht List.mem_cons_self name).bind fun r u hu => ?_
    obtain ⟨-, hu⟩ := hu
    cases r with
    | none =>
      obtain ⟨hs, hfind⟩ := hu
      have hf : u.Firm i := by
        rw [Kernel.Firm, hs.disk, hs.inode]
        exact hf
      refine (iunlockput_firm hJ (hJ.toSteady.same ht hs) hi hf).bind fun _ w hw => .pure ⟨?_, ?_, hw.1⟩
      · rw [hw.2]
        exact hcalm.trans ((hs.calm H).trans (calm_lowered u i H))
      · rw [hfind]
        rfl
    | some r =>
      obtain ⟨j, n⟩ := r
      obtain ⟨hu, e, -, hfind, -, -, hget⟩ := hu
      have hget' : Calm H t u := hget.calm (hJ.inv ht) fun l hl => List.mem_cons_of_mem _ hl
      -- the reference to the parent is as firm as before
      have href : 0 < (t.inode i).ref ∧ (t.inode i).ref ≤ (u.inode i).ref := by
        refine ⟨hpos, ?_⟩
        by_cases hij : i = j
        · subst hij
          rw [hget.same hpos]
          dsimp only
          omega
        · rw [hget.other i hij]
      have hfu : u.Firm i := by
        rw [Kernel.Firm, hget.disk, hget.inum_eq hpos]
        exact fun hfree => (hf hfree).imp_right fun h2 => by omega
      refine (iunlockput_firm hJ (hJ.toSteady.swap hu) hi hfu).bind fun _ w hw => ?_
      obtain ⟨hw, rfl⟩ := hw
      have hfj : (u.lowered i).Firm j := by
        by_cases hij : j = i
        · subst hij
          have hlow : (u.lowered j).inode j = { u.inode j with locked := false, ref := (u.inode j).ref - 1 } :=
            u.setInode_self ..
          have hl : (u.lowered j).disk = t.disk := hget.disk
          rw [Kernel.Firm, hlow, hl, hget.same hpos]
          exact fun hfree => (hf hfree).imp_right fun h2 => by
            dsimp only
            omega
        · have hlow : (u.lowered i).inode j = u.inode j := Kernel.setInode_of_ne hij ..
          rw [Kernel.Firm, hlow]
          exact hget.firm
      refine (ih hw hfj).mono fun r x hx => ⟨?_, ?_, hx.2.2⟩
      · exact hcalm.trans (hget'.trans ((calm_lowered u i H).trans hx.1))
      · have hl : (u.lowered i).disk = t.disk := hget.disk
        have hj : ((u.lowered i).inode j).inum = e.inum :=
          ((calm_lowered u i [j]).inum j (.inl List.mem_cons_self)).trans hget.self
        rw [hx.2.1, hl, hj, hfind]

/-- `namex` returns where the path leads. -/
theorem namex_walk (h : J H G L k) (path : Name) (np : Bool) : Ends (namex path np) k fun r t =>
    Calm H k t ∧ r.map (fun r => ((t.inode r.1).inum, r.2)) = k.leads path np ∧ match r with
      | none => J H G L t
      | some r => J (r.1 :: H) G L t := by
  have hloop : ∀ i t, J (i :: H) G L t → t.Firm i → Calm H k t → (t.inode i).inum = k.start path →
      Ends (namexLoop np i (elements path.length path)) t fun r t =>
        Calm H k t ∧ r.map (fun r => ((t.inode r.1).inum, r.2)) = k.leads path np ∧ match r with
          | none => J H G L t
          | some r => J (r.1 :: H) G L t := by
    intro i t ht hf hcalm hstart
    refine (namexLoop_walk hJ np _ ht hf).mono fun r u hu => ⟨hcalm.trans hu.1, ?_, hu.2.2⟩
    rw [hu.2.1, hcalm.disk, hstart, Kernel.leads]
  unfold namex
  refine .ite (fun hslash => ?_) fun hslash => ?_
  · refine (iget_firm hJ h rootIno).bind fun i t ht => hloop i t ht.1 ht.2.firm ?_ ?_
    · exact ht.2.calm (hJ.inv h) (List.Subset.refl H)
    · rw [ht.2.self, Kernel.start, if_pos hslash]
  · rw [ends_get_bind]
    obtain ⟨hlt, hpos⟩ := (hJ.inv h).cwd_pos List.mem_cons_self
    refine (idup_spec hJ.toSteady h hlt hpos).bind fun i t ht => ?_
    obtain ⟨rfl, ht, rfl⟩ := ht
    have hself : (k.grabbed k.proc.cwd).inode k.proc.cwd =
        { k.inode k.proc.cwd with ref := (k.inode k.proc.cwd).ref + 1 } := k.setInode_self ..
    refine hloop _ _ ht (fun _ => .inr ?_) ?_ ?_
    · rw [hself]
      dsimp only
      omega
    · exact calm_setInode k _ (f := fun n => { n with ref := n.ref + 1 }) (fun _ => rfl) H
    · rw [hself, Kernel.start, if_neg hslash]

theorem namei_walk (h : J H G L k) (path : Name) : Ends (namei path) k fun r t =>
    Calm H k t ∧ r.map (fun i => (t.inode i).inum) = k.finds path ∧ match r with
      | none => J H G L t
      | some i => J (i :: H) G L t := by
  refine (namex_walk hJ h path false).bind fun r t ht => .pure ⟨ht.1, ?_, ?_⟩
  · rw [Kernel.finds, ← ht.2.1, Option.map_map, Option.map_map]
    rfl
  · cases r with
    | none => exact ht.2.2
    | some r => exact ht.2.2

end Firmly

end Xv6.Files
