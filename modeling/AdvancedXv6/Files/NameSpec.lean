import AdvancedXv6.Files.Walk

/-! The calls that make and remove names keep the links, unless a name is made in a directory that has
been removed. -/

namespace Xv6.Files
open Function Effect

variable {x c : Option Nat} {H G L L' : List Nat} {k t u : Kernel} {i j dp m n inum : Nat} {path name : Name}

/-- The call makes a name in a directory without links. -/
def Kernel.Orphans (k : Kernel) (path : Name) : Prop :=
  ∃ n name, k.leads path true = some (n, name) ∧ k.disk.nlink n = 0 ∧ name ≠ dot ∧ name ≠ dotDot

/-- The count of the entry in the cache is changed, and written to the disk. -/
def Kernel.counted (k : Kernel) (i : Nat) (d : Int) : Kernel :=
  k.updated i fun e => { e with nlink := toShort (e.nlink + d) }

theorem addNlink_counted (k : Kernel) (i : Nat) (d : Int) : Ends (addNlink i d) k fun _ t => t = k.counted i d :=
  addNlink_state k i d

theorem Cached.counted (h : Cached x H G L k) (hi : i ∈ L) (d : Int) : Cached x H G L (k.counted i d) :=
  h.update hi (fun _ => rfl) (fun _ => rfl) fun _ _ hx => hx

theorem Cached.disk_counted (h : Cached x H G L k) (hi : i ∈ L) (d : Int) : (k.counted i d).disk =
    k.disk.setNlink (k.inode i).inum (toShort (k.disk.nlink (k.inode i).inum + d)) := by
  obtain ⟨hlt, hvalid, hpos⟩ := h.inv.lock i hi
  have hdisk := Kernel.disk_updated h.inv hi (f := fun e => { e with nlink := toShort (e.nlink + d) }) fun _ => rfl
  rw [← h.copy i hlt hpos hvalid]
  exact hdisk

theorem Kernel.inum_updated (k : Kernel) (i j : Nat) (f : Dinode → Dinode) :
    ((k.updated i f).inode j).inum = (k.inode j).inum := by
  by_cases hj : j = i
  · subst hj
    exact k.updated_inum j f
  · exact congrArg Inode.inum (update_of_ne hj ..)

theorem Kernel.counted_inum (k : Kernel) (i j : Nat) (d : Int) :
    ((k.counted i d).inode j).inum = (k.inode j).inum := k.inum_updated i j _

theorem Cached.type_ne (h : Cached x H G L k) (hi : i ∈ L) : k.disk.type (k.inode i).inum ≠ .free := by
  obtain ⟨hlt, hvalid, hpos⟩ := h.inv.lock i hi
  obtain ⟨htype, -, hfree⟩ := h.inv.cached i hlt hpos hvalid
  exact fun hf => hfree (htype.trans hf)

/-- A link is counted before it is there. -/
theorem Linked.raise (h : Linked none H G L k) (hi : i ∈ L) (hno : k.disk.nlink (k.inode i).inum ≠ -1) :
    Linked (some (k.inode i).inum) H G L (k.counted i 1) := by
  have hdisk := h.disk_counted hi 1
  have htree := h.tree
  rw [Disk.minus_none] at htree
  obtain ⟨hlt, hcount⟩ := htree.count _ (h.type_ne hi)
  refine ⟨h.toCached.counted hi 1, ?_, fun n hn => ?_⟩
  · have hback : toShort (toShort (k.disk.nlink (k.inode i).inum + 1) - 1) = k.disk.nlink (k.inode i).inum := by
      unfold toShort at *
      omega
    rw [hdisk, Disk.minus_some, Disk.setNlink_self, hback]
    have hsame : (k.disk.setNlink (k.inode i).inum (toShort (k.disk.nlink (k.inode i).inum + 1))).setNlink
        (k.inode i).inum (k.disk.nlink (k.inode i).inum) = k.disk := by
      simp only [Disk.setNlink, update_idem, update_eq_self]
    rwa [hsame]
  · obtain rfl := Option.some.inj hn
    rw [hdisk, Disk.setNlink_self]
    unfold toShort at *
    omega

/-- A link that is not there is no longer counted. -/
theorem Linked.lower (h : Linked (some (k.inode i).inum) H G L k) (hi : i ∈ L) :
    Linked none H G L (k.counted i (-1)) := by
  refine ⟨h.toCached.counted hi (-1), ?_, fun n hn => absurd hn (by simp)⟩
  have htree := h.tree
  rw [Disk.minus_some] at htree
  rw [Disk.minus_none, h.disk_counted hi]
  exact htree

/-- The end of a call that drops a locked entry leaves the others. -/
theorem iunlockput_inum (h : Linked c (i :: H) G L k) (hi : i ∈ L) (hL : ∀ j, j ∈ L' ↔ j ∈ L ∧ j ≠ i) :
    Ends (iunlockput i) k fun _ t => Linked c H G L' t ∧ ∀ j, (t.inode j).inum = (k.inode j).inum := by
  refine (iunlock_spec (steady_linked c) h hi hL).bind fun _ t ht => ?_
  obtain ⟨ht, rfl⟩ := ht
  refine (iput_spec (steady_linked c) ht).mono fun _ u hu => ⟨hu.1, fun j => ?_⟩
  rw [hu.2]
  refine Eq.trans ?_ ((calm_unlocked k i [j]).inum j (.inl List.mem_cons_self))
  by_cases hun : (k.unlockedAt i).Unused i
  · simp only [Kernel.dropped, Kernel.released, if_pos hun]
    exact (calm_setInode (k.unlockedAt i) i (f := fun n => { n with
      locked := false, ref := n.ref - 1, valid := false, copy := { ((k.unlockedAt i).inode i).copy with type := .free } })
      (fun _ => rfl) [j]).inum j (.inl List.mem_cons_self)
  · rw [Kernel.dropped_kept hun]
    exact (calm_lowered (k.unlockedAt i) i [j]).inum j (.inl List.mem_cons_self)

/-- What `dirlink` does: the name is new, and the entry is written to the first free place. -/
theorem dirlink_linked (h : Linked c H G L k) (hdp : dp ∈ L) (name : Name) (inum : Nat) :
    Ends (dirlink dp name inum) k fun ok t => match ok with
      | false => Linked c H G L t ∧ Calm H k t
      | true => k.disk.type (k.inode dp).inum = .dir ∧ ((k.disk.entries (k.inode dp).inum).find? fun e =>
          decide (e.inum ≠ 0 ∧ e.name = name)) = none ∧
          ∃ u, Same k u ∧ t = u.entered dp (Disk.slot (k.disk.entries (k.inode dp).inum)) ⟨inum, name⟩ := by
  refine (dirlookup_firm (firmly_linked _) h hdp name).bind fun r t ht => ?_
  obtain ⟨htype, ht⟩ := ht
  cases r with
  | some r =>
    obtain ⟨j, n⟩ := r
    obtain ⟨ht, e, -, -, -, -, hget⟩ := ht
    refine (iput_firm (firmly_linked _) ht hget.firm).bind fun _ u hu => .pure ⟨hu.1, (hget.calm h.inv (List.Subset.refl H)).trans ?_⟩
    rw [hu.2]
    exact calm_lowered t j H
  | none =>
    obtain ⟨hs, hfind⟩ := ht
    rw [ends_get_bind]
    refine (writeEntry_state t dp _ _ _).bind fun _ w hw => .pure ⟨htype, hfind, ?_⟩
    obtain ⟨u, hu, rfl⟩ := hw
    have hes : (t.data (t.inode dp).inum).entries = k.disk.entries (k.inode dp).inum := by
      rw [hs.inode, hs.entries]
      rfl
    refine ⟨u, hs.trans hu, ?_⟩
    rw [hes]
    rfl

/-- A name that a directory has not is none of those that every directory has. -/
theorem Disk.Tree.new_name {D : Disk} {p : Nat} (h : D.Tree) (hp : D.type p = .dir)
    (hfind : ((D.entries p).find? fun e => decide (e.inum ≠ 0 ∧ e.name = name)) = none) :
    name ≠ dot ∧ name ≠ dotDot := by
  have hp0 := (h.bound p (by rw [hp]; decide)).1
  have hup := h.up_pos hp
  rw [h.entries_eq hp] at hfind
  have hall := List.find?_eq_none.mp hfind
  constructor
  · rintro rfl
    exact hall _ List.mem_cons_self (decide_eq_true ⟨Nat.ne_of_gt hp0, rfl⟩)
  · rintro rfl
    exact hall _ (List.mem_cons_of_mem _ List.mem_cons_self) (decide_eq_true ⟨Nat.ne_of_gt hup, rfl⟩)

/-- A directory that gets a name is linked, unless the call is one that makes it where it is lost. -/
theorem Disk.Tree.live_of_new {D : Disk} {p : Nat} (h : D.Tree) (hp : D.type p = .dir)
    (hfind : ((D.entries p).find? fun e => decide (e.inum ≠ 0 ∧ e.name = name)) = none)
    (hno : ¬k.Orphans path) (hleads : k.leads path true = some (p, name)) (hnlink : k.disk.nlink p = D.nlink p) :
    D.Live p := by
  obtain ⟨hdot, hdotDot⟩ := h.new_name hp hfind
  refine (h.live_iff hp).mpr fun hzero => hno ⟨p, name, hleads, hnlink.trans hzero, hdot, hdotDot⟩

theorem linkBad_linked (h : Linked (some (k.inode i).inum) (i :: H) G L k) :
    Ends (linkBad i) k fun _ t => Linked none H G L t := by
  refine (ilock_spec (steady_linked _) h (h.inv.held i List.mem_cons_self)).bind fun _ t ht => ?_
  obtain ⟨ht, hi, rfl⟩ := ht
  have hinum := (calm_locked k i [i]).inum i (.inl List.mem_cons_self)
  rw [← hinum] at ht
  refine (addNlink_counted _ i (-1)).bind fun _ u hu => ?_
  rw [hu]
  exact putEnd_spec (steady_linked none) (ht.lower List.mem_cons_self) hi _

/-- The entries may be for other counts, but the walks are the same. -/
theorem leads_counted (h : Cached x H G L k) (hi : i ∈ L) (d : Int) (np : Bool) :
    ((k.counted i d).unlockedAt j).leads path np = k.leads path np := by
  have hdisk : ((k.counted i d).unlockedAt j).disk =
      k.disk.setNlink (k.inode i).inum (toShort (k.disk.nlink (k.inode i).inum + d)) := h.disk_counted hi d
  have hinum : (((k.counted i d).unlockedAt j).inode k.proc.cwd).inum = (k.inode k.proc.cwd).inum :=
    ((calm_unlocked _ j [k.proc.cwd]).inum _ (.inl List.mem_cons_self)).trans (k.counted_inum i _ d)
  have hstart : ((k.counted i d).unlockedAt j).start path = k.start path :=
    if_congr Iff.rfl rfl hinum
  rw [Kernel.leads, hdisk, Disk.lookup_setNlink, hstart, Kernel.leads]

theorem sysLink_linked (h : Linked none H G [] k) (old new : Option Name)
    (hno : ∀ o n m, old = some o → new = some n → k.finds o = some m → k.disk.type m ≠ .dir →
      ¬k.Orphans n ∧ k.disk.nlink m ≠ -1) : Ends (sysLink old new) k fun _ t => Linked none H G [] t := by
  have hJ := steady_linked none
  have htree := h.tree
  rw [Disk.minus_none] at htree
  unfold sysLink
  split
  · rename_i old new
    refine (beginOp_spec k).bind fun _ t ht => ?_
    refine (namei_walk (firmly_linked _) (hJ.same h ht) old).bind fun r u hu => ?_
    obtain ⟨hcalm, hfinds, hu⟩ := hu
    have hcalm := (ht.calm H).trans hcalm
    rw [Kernel.finds, (ht.calm H).leads] at hfinds
    cases r with
    | none => exact (endOp_spec u).bind fun _ w hw => .pure (hJ.same hu hw)
    | some i =>
      refine (ilock_spec hJ hu (hu.inv.held i List.mem_cons_self)).bind fun _ w hw => ?_
      obtain ⟨hw, hi, rfl⟩ := hw
      have hcw := calm_locked u i (i :: H)
      have hfinds : k.finds old = some ((u.lockedAt i).inode i).inum := by
        rw [hcw.inum i (.inl List.mem_cons_self)]
        exact hfinds.symm
      have hcalm := hcalm.trans (calm_locked u i H)
      generalize u.lockedAt i = w at *
      rw [ends_get_bind]
      refine .ite (fun _ => putEnd_spec hJ hw hi _) fun hdir => ?_
      obtain ⟨hlt, hvalid, hpos⟩ := hw.inv.lock i List.mem_cons_self
      obtain ⟨htype, -, -⟩ := hw.inv.cached i hlt hpos hvalid
      have hdir : k.disk.type (w.inode i).inum ≠ .dir := fun hd => hdir (htype.trans (by rwa [← hcalm.disk] at hd))
      obtain ⟨hno, hfull⟩ := hno old new _ rfl rfl hfinds hdir
      have hfree : k.disk.type (w.inode i).inum ≠ .free := hcalm.disk ▸ hw.type_ne List.mem_cons_self
      refine (addNlink_counted w i 1).bind fun _ x hx => ?_
      rw [hx]
      have hx := hw.raise List.mem_cons_self (by rwa [hcalm.disk])
      have hxd := hw.disk_counted List.mem_cons_self 1
      rw [hcalm.disk] at hxd
      refine (iunlock_spec (steady_linked _) hx List.mem_cons_self (mem_locks hi)).bind fun _ y hy => ?_
      obtain ⟨hy, rfl⟩ := hy
      have hleads : ((w.counted i 1).unlockedAt i).leads new true = k.leads new true := by
        rw [leads_counted hw.toCached List.mem_cons_self, hcalm.leads]
      have hyd : ((w.counted i 1).unlockedAt i).disk = (w.counted i 1).disk := rfl
      rw [hxd] at hyd
      have hm : (((w.counted i 1).unlockedAt i).inode i).inum = (w.inode i).inum :=
        ((calm_unlocked _ i [i]).inum i (.inl List.mem_cons_self)).trans (w.counted_inum i i 1)
      generalize (w.counted i 1).unlockedAt i = y at *
      rw [← hm] at hy hyd
      refine (namex_walk (firmly_linked _) hy new true).bind fun r z hz => ?_
      obtain ⟨hcz, hlz, hz⟩ := hz
      have hmz := hcz.inum i (.inl List.mem_cons_self)
      cases r with
      | none =>
        rw [← hmz] at hz
        exact linkBad_linked hz
      | some r =>
        obtain ⟨dp, name⟩ := r
        refine (ilock_spec (steady_linked _) hz (hz.inv.held dp List.mem_cons_self)).bind fun _ a ha => ?_
        obtain ⟨ha, hdp, rfl⟩ := ha
        have hca := hcz.trans (calm_locked z dp (i :: H))
        have hlead : some (((z.lockedAt dp).inode dp).inum, name) = k.leads new true := by
          rw [(calm_locked z dp [dp]).inum dp (.inl List.mem_cons_self), ← hleads]
          exact hlz
        generalize z.lockedAt dp = a at *
        have hma := hca.inum i (.inl List.mem_cons_self)
        have had := hca.disk
        rw [hyd] at had
        rw [ends_get_bind]
        refine .ite (fun _ => ?_) fun _ => ?_
        · refine (iunlockput_inum ha List.mem_cons_self (mem_locks hdp)).bind fun _ b hb => ?_
          rw [← hma, ← hb.2 i] at hb
          exact linkBad_linked hb.1
        rw [ends_get_bind]
        refine (dirlink_linked ha List.mem_cons_self name _).bind fun ok b hb => ?_
        cases ok with
        | false =>
          refine .ite (fun hok => absurd hok Bool.false_ne_true) fun _ => ?_
          refine (iunlockput_inum hb.1 List.mem_cons_self (mem_locks hdp)).bind fun _ d hd => ?_
          have hmd := (hd.2 i).trans (hb.2.inum i (.inl (List.mem_cons_of_mem _ List.mem_cons_self)))
          rw [← hma, ← hmd] at hd
          exact linkBad_linked hd.1
        | true =>
          refine .ite (fun _ => ?_) fun hok => absurd rfl hok
          obtain ⟨hdtype, hfind, u', hu', rfl⟩ := hb
          have hb := ((steady_cached none).same ha.toCached hu').enter List.mem_cons_self
            (Disk.slot (a.disk.entries (a.inode dp).inum)) ⟨(a.inode i).inum, name⟩
          have hbd := ((steady_cached none).same ha.toCached hu').disk_entered List.mem_cons_self
            (Disk.slot (a.disk.entries (a.inode dp).inum)) ⟨(a.inode i).inum, name⟩
          rw [hu'.inode, hu'.disk, had, hma] at hbd
          rw [had] at hdtype hfind
          have hlive : k.disk.Live (a.inode dp).inum := htree.live_of_new hdtype hfind hno hlead.symm rfl
          rw [← hm] at hdir hfree hfull
          have htree' := htree.link hlive hdir hfree (htree.new_name hdtype hfind) hfull
          have hb : Linked none (dp :: i :: H) G [dp] _ := ⟨hb, by
            rw [Disk.minus_none, hma, had, hbd]
            exact htree', fun n hn => absurd hn (by simp)⟩
          refine (iunlockput_spec hJ hb List.mem_cons_self (mem_locks hdp)).bind fun _ c hc => ?_
          refine (iput_spec hJ hc).bind fun _ d hd => ?_
          exact (endOp_spec d).bind fun _ e he => .pure (hJ.same hd.1 he)
  · exact .pure h

theorem isdirempty_state (k : Kernel) (i : Nat) : Ends (isdirempty i) k fun r t => Same k t ∧
    (r = true → ∀ e ∈ k.disk.rest (k.inode i).inum, e.inum = 0) := by
  rw [isdirempty, ends_get_bind]
  dsimp only
  split
  · rename_i hnone
    refine (bmapTo_spec k _ _).bind fun _ t ht => .pure ⟨ht, fun _ e he => ?_⟩
    simpa using List.findIdx?_eq_none_iff.mp hnone e he
  · exact (bmapTo_spec k _ _).bind fun _ t ht => .pure ⟨ht, fun hr => absurd hr Bool.false_ne_true⟩

theorem busy_state (k : Kernel) (i : Nat) : Ends (busy i) k fun r t => Same k t ∧
    (r = false → (k.inode i).copy.type = .dir → ∀ e ∈ k.disk.rest (k.inode i).inum, e.inum = 0) := by
  rw [busy, ends_get_bind]
  refine .ite (fun _ => ?_) fun hdir => .pure ⟨.refl k, fun _ hd => absurd hd hdir⟩
  refine (isdirempty_state k i).bind fun r t ht => .pure ⟨ht.1, fun hr _ => ht.2 ?_⟩
  cases r with
  | true => rfl
  | false => exact absurd hr (by decide)

/-- The locked entries are for different inodes. -/
theorem Cached.inum_ne (h : Cached x H G L k) (hi : i ∈ L) (hj : j ∈ L) (hij : i ≠ j) :
    (k.inode i).inum ≠ (k.inode j).inum := by
  obtain ⟨hlt, -, hpos⟩ := h.inv.lock i hi
  obtain ⟨hlt', -, hpos'⟩ := h.inv.lock j hj
  exact h.inv.only hlt' hpos' i hlt hij hpos

/-- The name is removed, and then the link that it was. -/
theorem removeEntry_linked (h : Linked none (i :: dp :: H) G [i, dp] k) (hi : i ∉ [dp]) {off : Nat} {e : Dirent}
    (he : (k.disk.entries (k.inode dp).inum)[off]? = some e) (hinum : e.inum = (k.inode i).inum)
    (hname : e.name ≠ dot ∧ e.name ≠ dotDot) (hdp : k.disk.type (k.inode dp).inum = .dir)
    (hlinks : 1 ≤ (k.inode i).copy.nlink)
    (hempty : (k.inode i).copy.type = .dir → ∀ x ∈ k.disk.rest (k.inode i).inum, x.inum = 0) :
    Ends (removeEntry dp i off) k fun _ t => Linked none H G [] t := by
  have hJ := steady_linked
  have htree := h.tree
  rw [Disk.minus_none] at htree
  have hmi : i ∈ [i, dp] := List.mem_cons_self
  have hmdp : dp ∈ [i, dp] := List.mem_cons_of_mem _ List.mem_cons_self
  obtain ⟨hlt, hvalid, hpos⟩ := h.inv.lock i hmi
  obtain ⟨htype, -, -⟩ := h.inv.cached i hlt hpos hvalid
  have htype : (k.inode i).copy.type = k.disk.type e.inum := hinum ▸ htype
  have hcopy : (k.inode i).copy.nlink = k.disk.nlink e.inum := hinum ▸ h.copy i hlt hpos hvalid
  have hfree : k.disk.type e.inum ≠ .free := hinum ▸ h.type_ne hmi
  have hepos := (htree.bound _ hfree).1
  have hne : e.inum ≠ (k.inode dp).inum := hinum ▸ h.inum_ne hmi hmdp (by simpa using hi)
  have hlive : k.disk.Live (k.inode dp).inum := by
    refine (htree.live_iff hdp).mpr fun hzero => ?_
    obtain ⟨j, -, hj⟩ := htree.entry_two hdp he hname
    have := htree.dead _ hdp hzero e (List.mem_of_getElem? hj)
    omega
  -- the end of the call, once the parent has been written
  have hrest : ∀ u, Linked (some e.inum) (i :: dp :: H) G [i, dp] u → (u.inode i).inum = e.inum →
      Ends (do iunlockput dp; addNlink i (-1); iunlockput i; endOp; return .int 0) u
        fun (_ : Ret) t => Linked none H G [] t := by
    intro u hu hui
    refine (iunlockput_inum ((hJ _).swap hu) hmdp (locks_pair hi)).bind fun _ w hw => ?_
    obtain ⟨hw, hwi⟩ := hw
    rw [← hui, ← hwi i] at hw
    refine (addNlink_counted w i (-1)).bind fun _ y hy => ?_
    rw [hy]
    exact putEnd_spec (hJ none) (hw.lower List.mem_cons_self) List.not_mem_nil _
  refine (writeEntry_state k dp off ⟨0, []⟩ _).bind fun _ t ht => ?_
  obtain ⟨u, hu, rfl⟩ := ht
  have hcached := ((steady_cached none).same h.toCached hu).enter hmdp off ⟨0, []⟩
  have hdisk := ((steady_cached none).same h.toCached hu).disk_entered hmdp off ⟨0, []⟩
  rw [hu.inode, hu.disk] at hdisk
  have hinode : (u.entered dp off ⟨0, []⟩).inode = k.inode := by
    rw [← hu.inode, Kernel.entered]
    dsimp only
    split <;> rfl
  generalize u.entered dp off ⟨0, []⟩ = t at *
  rw [ends_get_bind]
  refine .ite (fun hdir => ?_) fun hdir => ?_
  · rw [hinode] at hdir
    refine (addNlink_counted t dp (-1)).bind fun _ w hw => ?_
    rw [hw]
    have hdisk' := hcached.disk_counted hmdp (-1)
    rw [hinode, hdisk] at hdisk'
    have hchild : (t.counted dp (-1)).disk.nlink e.inum = k.disk.nlink e.inum := by
      rw [hdisk', Disk.setNlink_of_ne hne]
      rfl
    refine hrest _ ⟨hcached.counted hmdp (-1), ?_, fun n hn => ?_⟩ ?_
    · have hlive' : k.disk.Live e.inum := ⟨htype.symm.trans hdir, by omega⟩
      rw [Disk.minus_some, hchild, hdisk']
      exact htree.prune hlive he hname hlive' hne (hinum ▸ hempty hdir)
    · obtain rfl := Option.some.inj hn
      rw [hchild]
      omega
    · exact (t.counted_inum dp i (-1)).trans (by rw [hinode, hinum])
  · refine hrest t ⟨hcached, ?_, fun n hn => ?_⟩ ?_
    · rw [hdisk, Disk.minus_some]
      exact htree.unlink hlive he hname (fun hd => hdir (by rw [hinode, htype]; exact hd)) hfree
    · obtain rfl := Option.some.inj hn
      rw [hdisk]
      have : k.disk.nlink e.inum ≠ 0 := by omega
      exact this
    · rw [hinode, hinum]

theorem sysUnlink_linked (h : Linked none H G [] k) (path : Option Name) :
    Ends (sysUnlink path) k fun _ t => Linked none H G [] t := by
  have hJ := steady_linked none
  cases path with
  | none => exact .pure h
  | some path =>
    refine (beginOp_spec k).bind fun _ t ht => ?_
    refine (namex_spec hJ (hJ.same h ht) path true).bind fun r u hu => ?_
    cases r with
    | none => exact (endOp_spec u).bind fun _ w hw => .pure (hJ.same hu hw)
    | some r =>
      obtain ⟨dp, name⟩ := r
      refine (ilock_spec hJ hu (hu.inv.held dp List.mem_cons_self)).bind fun _ w hw => ?_
      obtain ⟨hw, hdp, -⟩ := hw
      have hbad : ∀ t, Linked none (dp :: H) G [dp] t → Ends (unlinkBad dp) t fun _ t => Linked none H G [] t :=
        fun t ht => putEnd_spec hJ ht hdp _
      refine .ite (fun _ => hbad w hw) fun hname => ?_
      rw [not_or] at hname
      refine (dirlookup_firm (firmly_linked _) hw List.mem_cons_self name).bind fun r x hx => ?_
      obtain ⟨hdtype, hx⟩ := hx
      cases r with
      | none => exact hbad x (hJ.same hw hx.1)
      | some r =>
        obtain ⟨i, off⟩ := r
        obtain ⟨hx, e, he, -, -, hename, hget⟩ := hx
        have hcalm := hget.calm hw.inv (List.Subset.refl _)
        refine (ilock_spec hJ hx (hx.inv.held i List.mem_cons_self)).bind fun _ y hy => ?_
        obtain ⟨hy, hi, rfl⟩ := hy
        have hcalm := hcalm.trans (calm_locked x i (dp :: H))
        have hself := ((calm_locked x i [i]).inum i (.inl List.mem_cons_self)).trans hget.self
        generalize x.lockedAt i = y at *
        rw [ends_get_bind]
        refine .ite (fun _ => .throw _) fun hlinks => ?_
        refine (busy_state y i).bind fun b z hz => ?_
        obtain ⟨hs, hempty⟩ := hz
        have hz := hJ.same hy hs
        cases b with
        | true =>
          refine .ite (fun _ => ?_) fun hb => absurd rfl hb
          refine (iunlockput_spec hJ hz List.mem_cons_self (mem_locks hi)).bind fun _ a ha => ?_
          exact hbad a ha
        | false =>
          refine .ite (fun hb => absurd hb Bool.false_ne_true) fun _ => ?_
          have hzdp : (z.inode dp).inum = (w.inode dp).inum := by
            rw [hs.inode]
            exact hcalm.inum dp (.inl List.mem_cons_self)
          have hzd : z.disk = w.disk := hs.disk.trans hcalm.disk
          refine removeEntry_linked hz hi (e := e) ?_ ?_ (hename ▸ hname) ?_ ?_ ?_
          · rw [hzd, hzdp]
            exact he
          · rw [hs.inode]
            exact hself.symm
          · rw [hzd, hzdp]
            exact hdtype
          · rw [hs.inode]
            omega
          · rw [hs.inode, hs.disk]
            exact hempty rfl

/-! ### Making an inode -/

theorem ialloc_state (h : Cached none H G L k) (type : Kind) : Ends (ialloc rootDev type) k fun i t => ∃ n,
    k.disk.type n = .free ∧ 0 < n ∧ n < ninodes ∧ Cached (some n) (i :: H) G L t ∧
      t.disk = k.disk.put n type [] ∧ (t.inode i).inum = n ∧ ∀ j ∈ H, (t.inode j).inum = (k.inode j).inum := by
  rw [ialloc, ends_get_bind]
  split
  · exact .throw _
  · rename_i n hfind
    have hn := List.mem_range'_1.mp (List.mem_of_find?_eq_some hfind)
    have hp := List.find?_some hfind
    have hfree : k.disk.type n = .free := of_decide_eq_true hp
    have hlt : n < ninodes := hn.2
    have hc := h.alloc hfree type
    rw [ends_modify_bind]
    refine (iget_state (k.allocated n type) rootDev n).mono fun i t hi => ⟨n, hfree, hn.1, hlt, ?_⟩
    obtain ⟨hi, ⟨rfl, hpos, hinum⟩ | ⟨rfl, hzero, hnew⟩⟩ := hi
    · refine ⟨hc.grab hi hpos, k.disk_allocated n type, ?_, fun j _ => ?_⟩
      · rw [Kernel.grabbed, Kernel.setInode_self]
        exact hinum
      · by_cases hj : j = i
        · rw [hj, Kernel.grabbed, Kernel.setInode_self]
          rfl
        · rw [Kernel.grabbed, Kernel.setInode_of_ne hj]
          rfl
    · refine ⟨hc.recycle hi hzero fun j hj hpos => hnew j hj hpos (hc.inv.dev j hj hpos), k.disk_allocated n type,
        ?_, fun j hj => ?_⟩
      · rw [Kernel.setInode_self]
      · have hne : j ≠ i := by
          rintro rfl
          exact absurd hzero (Int.ne_of_gt (hc.inv.pos_of_held hj))
        rw [Kernel.setInode_of_ne hne]
        rfl

/-- A name that is not there is added. -/
theorem dirlink_new (h : Cached x H G L k) (hdp : dp ∈ L) (inum : Nat)
    (hfind : ((k.disk.entries (k.inode dp).inum).find? fun e => decide (e.inum ≠ 0 ∧ e.name = name)) = none) :
    Ends (dirlink dp name inum) k fun ok t => ok = true ∧ Cached x H G L t ∧ t.inode = k.inode ∧ t.disk =
      k.disk.enter (k.inode dp).inum (Disk.slot (k.disk.entries (k.inode dp).inum)) ⟨inum, name⟩ := by
  have hnone : Ends (dirlookup dp name) k fun r t => r = none ∧ Same k t := by
    rw [dirlookup, ends_get_bind]
    refine .ite (fun _ => .throw _) fun _ => ?_
    dsimp only
    split
    · exact (bmapTo_spec k _ _).bind fun _ t ht => .pure ⟨rfl, ht⟩
    · rename_i n hsome
      obtain ⟨e, -, he, -⟩ := find_of_findIdx hsome
      exact absurd (hfind.symm.trans he) (by simp)
  refine hnone.bind fun r t ht => ?_
  obtain ⟨rfl, hs⟩ := ht
  rw [ends_get_bind]
  refine (writeEntry_state t dp _ _ _).bind fun _ w hw => .pure ⟨rfl, ?_⟩
  obtain ⟨u, hu, rfl⟩ := hw
  have hku := hs.trans hu
  have hc := (steady_cached x).same h hku
  have hes : (t.data (t.inode dp).inum).entries = k.disk.entries (k.inode dp).inum := by
    rw [hs.inode, hs.entries]
    rfl
  refine ⟨hc.enter hdp _ _, ?_, ?_⟩
  · rw [← hku.inode, Kernel.entered]
    dsimp only
    split <;> rfl
  · rw [hc.disk_entered hdp, hku.inode, hku.disk, hes]
    rfl

theorem makeDots_cached (h : Cached none H G L k) (hi : i ∈ L) (hdp : dp ∈ L) (hn : 0 < (k.inode i).inum)
    (hes : k.disk.entries (k.inode i).inum = []) :
    Ends (makeDots dp i) k fun _ t => Cached none H G L t ∧
      (∀ j, (t.inode j).inum = (k.inode j).inum) ∧ t.disk =
        ((k.disk.setNlink (k.inode dp).inum (toShort (k.disk.nlink (k.inode dp).inum + 1))).enter (k.inode i).inum 0
          ⟨(k.inode i).inum, dot⟩).enter (k.inode i).inum 1 ⟨(k.inode dp).inum, dotDot⟩ := by
  refine (addNlink_counted k dp 1).bind fun _ t ht => ?_
  rw [ht]
  have hc := h.counted hdp 1
  have hd := h.disk_counted hdp 1
  have hinum := fun j => k.counted_inum dp j 1
  generalize k.counted dp 1 = a at *
  have haes : a.disk.entries (a.inode i).inum = [] := by
    rw [hd, hinum]
    exact hes
  rw [ends_get_bind]
  refine (dirlink_new hc hi _ (by rw [haes]; rfl)).bind fun ok u hu => ?_
  refine .ite (fun _ => .throw _) fun _ => ?_
  obtain ⟨-, hcu, hui, hud⟩ := hu
  rw [haes, hinum, hd] at hud
  have hues : u.disk.entries (u.inode i).inum = [⟨(k.inode i).inum, dot⟩] := by
    rw [hui, hinum, hud]
    refine (update_self ..).trans ?_
    have hes' : (k.disk.setNlink (k.inode dp).inum (toShort (k.disk.nlink (k.inode dp).inum + 1))).entries
        (k.inode i).inum = [] := hes
    rw [hes']
    rfl
  have hslot : Disk.slot [⟨(k.inode i).inum, dot⟩] = 1 := by
    have hnz : (k.inode i).inum ≠ 0 := Nat.ne_of_gt hn
    rw [Disk.slot, List.findIdx?_cons]
    simp [hnz]
  have hname : dot ≠ dotDot := by decide
  refine (dirlink_new hcu hi _ (by rw [hues]; simp [hname])).bind fun ok w hw => ?_
  refine .ite (fun _ => .throw _) fun _ => .pure ?_
  obtain ⟨-, hcw, hwi, hwd⟩ := hw
  refine ⟨hcw, fun j => ?_, ?_⟩
  · rw [hwi, hui, hinum]
  · rw [hwd, hues, hslot, hud, hui, hinum, hinum]
    rfl

/-- The end of `create`: the new inode gets its name. -/
theorem named (h : Cached none (i :: dp :: H) [] [i, dp] k) (hi : i ∉ [dp])
    (hfind : ((k.disk.entries (k.inode dp).inum).find? fun e => decide (e.inum ≠ 0 ∧ e.name = name)) = none)
    (htree : (k.disk.enter (k.inode dp).inum (Disk.slot (k.disk.entries (k.inode dp).inum))
      ⟨(k.inode i).inum, name⟩).Tree) : Locks (Linked none) H (do
        if !(← dirlink dp name ((← get).inode i).inum) then throw .dirlink
        iunlockput dp
        return some i) k := by
  have hdp : dp ∈ [i, dp] := List.mem_cons_of_mem _ List.mem_cons_self
  refine ends_get_bind.mpr ?_
  refine (dirlink_new h hdp _ hfind).bind fun ok t ht => ?_
  obtain ⟨rfl, hc, -, hd⟩ := ht
  have ht : Linked none (i :: dp :: H) [] [i, dp] t := by
    refine ⟨hc, ?_, fun n hn => absurd hn (by simp)⟩
    rw [Disk.minus_none, hd]
    exact htree
  refine .ite (fun ho => absurd ho (by decide)) fun _ => ?_
  refine (iunlockput_spec (steady_linked none) ((steady_linked none).swap ht) hdp (locks_pair hi)).bind fun _ u hu => ?_
  exact .pure hu

theorem create_linked (h : Linked none H [] [] k) (path : Name) {type : Kind} (htype : type ≠ .free)
    (major minor : Int) (hno : ¬k.Orphans path) : Locks (Linked none) H (create path type major minor) k := by
  have hJ := steady_linked none
  have htree := h.tree
  rw [Disk.minus_none] at htree
  refine (namex_walk (firmly_linked _) h path true).bind fun r t ht => ?_
  obtain ⟨hcalm, hleads, ht⟩ := ht
  cases r with
  | none => exact .pure ht
  | some r =>
    obtain ⟨dp, name⟩ := r
    refine (ilock_spec hJ ht (ht.inv.held dp List.mem_cons_self)).bind fun _ u hu => ?_
    obtain ⟨hu, hdp, rfl⟩ := hu
    have hleads : some (((t.lockedAt dp).inode dp).inum, name) = k.leads path true := by
      rw [(calm_locked t dp [dp]).inum dp (.inl List.mem_cons_self)]
      exact hleads
    have hud : (t.lockedAt dp).disk = k.disk := hcalm.disk
    generalize t.lockedAt dp = u at *
    refine (dirlookup_firm (firmly_linked _) hu List.mem_cons_self name).bind fun r w hw => ?_
    obtain ⟨hdtype, hw⟩ := hw
    cases r with
    | some r =>
      obtain ⟨i, off⟩ := r
      have hw := hJ.swap hw.1
      refine (iunlockput_spec hJ hw List.mem_cons_self (mem_locks hdp)).bind fun _ x hx => ?_
      refine (ilock_spec hJ hx (hx.inv.held i List.mem_cons_self)).bind fun _ y hy => ?_
      obtain ⟨hy, hi, -⟩ := hy
      rw [ends_get_bind]
      refine .ite (fun _ => .pure hy) fun _ => ?_
      exact (iunlockput_spec hJ hy List.mem_cons_self (mem_locks hi)).bind fun _ z hz => .pure hz
    | none =>
      obtain ⟨hs, hfind⟩ := hw
      rw [hud] at hdtype hfind
      have hlive : k.disk.Live (u.inode dp).inum := htree.live_of_new hdtype hfind hno hleads.symm rfl
      have hname := htree.new_name hdtype hfind
      have hw := (hJ.same hu hs).toCached
      have hwd := hs.disk.trans hud
      rw [← hs.inode] at hlive hfind
      obtain ⟨hlt, -, hpos⟩ := hw.inv.lock dp List.mem_cons_self
      rw [ends_get_bind, hw.inv.dev dp hlt hpos]
      refine (ialloc_state hw type).bind fun i x hx => ?_
      obtain ⟨n, hn, hn0, hnlt, hx, hxd, hxi, hxH⟩ := hx
      rw [hwd] at hn hxd
      have hxdp := hxH dp List.mem_cons_self
      refine (ilock_spec (steady_cached (some n)) hx (hx.inv.held i List.mem_cons_self)).bind fun _ y hy => ?_
      obtain ⟨hy, hi, rfl⟩ := hy
      have hyi := ((calm_locked x i [i]).inum i (.inl List.mem_cons_self)).trans hxi
      have hydp := ((calm_locked x i [dp]).inum dp (.inl List.mem_cons_self)).trans hxdp
      have hyd : (x.lockedAt i).disk = k.disk.put n type [] := hxd
      generalize x.lockedAt i = y at *
      rw [ends_modify_bind]
      refine (iupdate_state y i fun d => { d with major, minor, nlink := 1 }).bind fun _ z hz => ?_
      have hzc : Cached none (i :: dp :: H) [] [i, dp] z := by
        rw [hz]
        refine hy.update List.mem_cons_self (fun _ => rfl) (fun _ => rfl) fun m hm _ hnm => ?_
        exact hm ((Option.some.inj hnm).symm.trans hyi.symm)
      have hzd : z.disk = (k.disk.put n type []).setNlink n 1 := by
        rw [hz, Kernel.disk_updated hy.inv List.mem_cons_self (f := fun d => { d with major, minor, nlink := 1 })
          fun _ => rfl, hyi, hyd]
      have hzi : (z.inode i).inum = n := by
        rw [hz, Kernel.inum_updated]
        exact hyi
      have hzdp : (z.inode dp).inum = (w.inode dp).inum := by
        rw [hz, Kernel.inum_updated]
        exact hydp
      have hpn : (w.inode dp).inum ≠ n := by
        intro hpn
        rw [hpn] at hlive
        exact absurd (hlive.1.symm.trans hn) (by decide)
      have hmi : i ∈ [i, dp] := List.mem_cons_self
      have hmdp : dp ∈ [i, dp] := List.mem_cons_of_mem _ List.mem_cons_self
      have hzes : ∀ m ≠ n, z.disk.entries m = k.disk.entries m := fun m hm => by
        rw [hzd]
        exact @Disk.put_entries_of_ne m n type hm k.disk []
      have hzes' : z.disk.entries n = [] := by
        rw [hzd]
        exact Disk.put_entries k.disk n type []
      refine .ite (fun hdir => ?_) fun hdir => ?_
      · subst hdir
        refine (makeDots_cached hzc hmi hmdp (by rwa [hzi]) (hzi ▸ hzes')).bind fun _ a ha => ?_
        obtain ⟨hac, hai, had⟩ := ha
        have hnlink : z.disk.nlink (w.inode dp).inum = k.disk.nlink (w.inode dp).inum := by
          rw [hzd, Disk.setNlink_of_ne hpn, Disk.put_nlink_of_ne hpn]
        rw [hzi, hzdp, hnlink, hzd] at had
        have haes : a.disk.entries (w.inode dp).inum = k.disk.entries (w.inode dp).inum := by
          rw [had]
          refine (update_of_ne hpn ..).trans ((update_of_ne hpn ..).trans ?_)
          exact @Disk.put_entries_of_ne _ n .dir hpn k.disk []
        refine named hac hi ?_ ?_
        · rw [hai, hzdp, haes]
          exact hfind
        · rw [hai, hai, hzdp, hzi, haes, had]
          exact htree.create_dir hlive ⟨hn0, hnlt⟩ hn hname
      · refine named hzc hi ?_ ?_
        · rw [hzdp, hzes _ hpn]
          exact hfind
        · rw [hzdp, hzi, hzes _ hpn, hzd]
          exact htree.create_file hlive ⟨hn0, hnlt⟩ hn hdir htype hname

end Xv6.Files
