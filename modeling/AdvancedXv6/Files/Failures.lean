import AdvancedXv6.Files.Still

/-! System calls that return -1 leave everything as it was, but for the file that `open` has created when it runs out of
files or descriptors. -/

namespace Xv6.Files
open Function Effect Run

variable {H H₀ G G₀ L L₀ : List Nat} {k k₀ t u w : Kernel} {i dp f n : Nat} {img : Image}

/-- The types, links and entries of inodes, the contents of files, the processes with their descriptors and current
directories, the file table and the references to inodes are the same. -/
structure Unchanged (k t : Kernel) : Prop where
  disk : t.disk = k.disk
  bytes : ∀ n, (t.data n).bytes = (k.data n).bytes
  proc : t.proc = k.proc
  others : t.others = k.others
  ref : ∀ f, (t.file f).ref = (k.file f).ref
  file : ∀ f, 0 < (k.file f).ref → t.file f = k.file f
  cache : ∀ i < ninode, (t.inode i).ref = (k.inode i).ref ∧
    (0 < (k.inode i).ref → (t.inode i).dev = (k.inode i).dev ∧ (t.inode i).inum = (k.inode i).inum)

theorem Base.unchanged (h₀ : Cached none [] [] [] k) (h : Base k [] [] [] [] t) : Unchanged k t := by
  refine ⟨h.still.disk, h.still.bytes, h.still.proc, h.still.others, h.still.ref, h.still.file, fun i hi => ?_⟩
  have hrefs := h₀.inv.refs i hi
  have href : (t.inode i).ref = (k.inode i).ref := by
    rw [h.cached.inv.refs i hi, hrefs, h.still.uses]
    rfl
  refine ⟨href, fun hpos => ⟨?_, h.still.inum i (.inr ?_)⟩⟩
  · rw [h₀.inv.dev i hi hpos, h.cached.inv.dev i hi (href.symm ▸ hpos)]
  · rw [List.count_nil] at hrefs
    omega

/-- Where the call returns -1, the kernel has given back what it has taken. -/
def Undone (m : M Ret) (k₀ k : Kernel) : Prop := Ends m k fun r t => r = .int (-1) → Base k₀ [] [] [] [] t

theorem undone_zero {α : Type} {m : M α} {n : Int} (hn : n ≠ -1) : Undone (do let _ ← m; return .int n) k₀ k :=
  Ends.any.bind fun _ _ _ => .pure fun hr => absurd (Ret.int.inj hr) hn

section Calls
variable (h₀ : Cached none [] [] [] k₀)
include h₀

theorem end_undone (h : Base k₀ [] [] [] [] t) : Undone (do endOp; return .int (-1)) k₀ t :=
  (endOp_mild t).bind fun _ _ hu => .pure fun _ => (walks_base h₀).mild h hu

theorem put_undone (h : Base k₀ [] [i] [] [i] t) : Undone (do iunlockput i; endOp; return .int (-1)) k₀ t := by
  refine ((walks_base h₀).iunlockput h List.mem_cons_self (mem_locks List.not_mem_nil)).bind fun _ u hu => ?_
  exact end_undone h₀ hu

theorem sysChdir_undone (path : Option Name) : Undone (sysChdir path) k₀ k₀ := by
  have hW := walks_base h₀
  refine (beginOp_mild k₀).bind fun _ t ht => ?_
  have ht := hW.mild (Base.refl h₀) ht
  cases path with
  | none => exact end_undone h₀ ht
  | some path =>
    refine (hW.namei ht path).bind fun r u hu => ?_
    cases r with
    | none => exact end_undone h₀ hu
    | some i =>
      refine (hW.ilock hu (hW.held hu)).bind fun _ w hw => ?_
      rw [ends_get_bind]
      refine .ite (fun _ => put_undone h₀ hw.1) fun _ => ?_
      refine Ends.any.bind fun _ x _ => ?_
      rw [ends_get_bind]
      exact Ends.any.bind fun _ _ _ => Ends.any.bind fun _ _ _ => undone_zero (by decide)

theorem sysUnlink_undone (path : Option Name) : Undone (sysUnlink path) k₀ k₀ := by
  have hW := walks_base h₀
  cases path with
  | none => exact .pure fun _ => Base.refl h₀
  | some path =>
    refine (beginOp_mild k₀).bind fun _ t ht => ?_
    refine (hW.namex (hW.mild (Base.refl h₀) ht) path true).bind fun r u hu => ?_
    cases r with
    | none => exact end_undone h₀ hu
    | some r =>
      obtain ⟨dp, name⟩ := r
      refine (hW.ilock hu (hW.held hu)).bind fun _ w hw => ?_
      obtain ⟨hw, hdp, -⟩ := hw
      refine .ite (fun _ => put_undone h₀ hw) fun _ => ?_
      refine (hW.dirlookup hw List.mem_cons_self name).bind fun r x hx => ?_
      cases r with
      | none => exact put_undone h₀ hx
      | some r =>
        obtain ⟨i, off⟩ := r
        refine (hW.ilock hx (hW.held hx)).bind fun _ y hy => ?_
        obtain ⟨hy, hi, -⟩ := hy
        rw [ends_get_bind]
        refine .ite (fun _ => .throw _) fun _ => ?_
        refine (busy_spec y i).bind fun b z hz => .ite (fun _ => ?_) fun _ => ?_
        · refine (hW.iunlockput (hW.mild hy hz) List.mem_cons_self (mem_locks hi)).bind fun _ a ha => ?_
          exact put_undone h₀ ha
        · refine Ends.any.bind fun _ a _ => ?_
          rw [ends_get_bind]
          have hrest : ∀ b, Undone (do iunlockput dp; addNlink i (-1); iunlockput i; endOp; return .int 0) k₀ b :=
            fun _ => Ends.any.bind fun _ _ _ => Ends.any.bind fun _ _ _ => Ends.any.bind fun _ _ _ =>
              undone_zero (by decide)
          exact .ite (fun _ => Ends.any.bind fun _ _ _ => hrest _) fun _ => hrest a

end Calls

theorem sysDup_undone (h₀ : Cached none [] [] [] k₀) (fd : Int) : Undone (sysDup fd) k₀ k₀ := by
  refine (argfd_spec k₀ fd).bind fun r t ht => ?_
  obtain ⟨rfl, -⟩ := ht
  cases r with
  | none => exact .pure fun _ => Base.refl h₀
  | some f =>
    refine (fdalloc_state t f).bind fun r u hu => ?_
    cases r with
    | none =>
      subst hu
      exact .pure fun _ => Base.refl h₀
    | some fd => exact undone_zero (by omega)

/-! ### Links -/

/-- The link of `sys_link` is counted, and then no longer. -/
theorem undo_count (h₀ : Known [] [] [] k) (hw : Base k [] [i] [] [i] w)
    (ha : Base ((w.counted i 1).unlockedAt i) [i] [] [] [i] t) : Base k [] [i] [] [i] (t.counted i (-1)) := by
  have hi : i ∈ [i] := List.mem_cons_self
  have hinum : ∀ j, (((w.counted i 1).unlockedAt i).inode j).inum = (w.inode j).inum := fun j =>
    ((calm_unlocked _ i [j]).inum j (.inl List.mem_cons_self)).trans (w.counted_inum i j 1)
  have hn : (t.inode i).inum = (w.inode i).inum := (ha.still.inum i (.inl hi)).trans (hinum i)
  have hdisk : t.disk = w.disk.setNlink (w.inode i).inum (toShort (w.disk.nlink (w.inode i).inum + 1)) :=
    ha.still.disk.trans (hw.cached.disk_counted hi 1)
  have hback : (t.counted i (-1)).disk = k.disk := by
    have hshort := h₀.short (w.inode i).inum
    have htwice : toShort (toShort (k.disk.nlink (w.inode i).inum + 1) + -1) = k.disk.nlink (w.inode i).inum := by
      unfold toShort at *
      omega
    rw [ha.cached.disk_counted hi, hdisk, hn, Disk.setNlink_self, hw.still.disk, htwice]
    simp only [Disk.setNlink, update_idem, update_eq_self]
  refine ⟨ha.cached.counted hi (-1), fun f => (ha.still.ref f).trans (hw.still.ref f), fun f hpos => ?_, hback,
    fun n => (ha.still.bytes n).trans (hw.still.bytes n), ha.still.proc.trans hw.still.proc,
    ha.still.others.trans hw.still.others, fun j hj => ?_⟩
  · exact (ha.still.file f ((hw.still.ref f).symm ▸ hpos)).trans (hw.still.file f hpos)
  · have huse : 0 < ((w.counted i 1).unlockedAt i).uses j := by
      refine (hw.still.uses j).symm ▸ hj.resolve_left List.not_mem_nil
    rw [t.counted_inum, ha.still.inum j (.inr huse), hinum]
    exact hw.still.inum j hj

theorem linkBad_undone (h₀ : Known [] [] [] k) (hw : Base k [] [i] [] [i] w)
    (hy : Cached none [i] [] [] ((w.counted i 1).unlockedAt i)) (hz : Base ((w.counted i 1).unlockedAt i) [i] [] [] [] t) :
    Undone (linkBad i) k t := by
  refine ((walks_base hy).ilock hz (hz.cached.inv.held i List.mem_cons_self)).bind fun _ a ha => ?_
  refine (addNlink_counted a i (-1)).bind fun _ b hb => ?_
  rw [hb]
  exact put_undone h₀.toCached (undo_count h₀ hw ha.1)

theorem sysLink_undone (h₀ : Known [] [] [] k) (old new : Option Name) : Undone (sysLink old new) k k := by
  have hW := walks_base h₀.toCached
  unfold sysLink
  split
  · rename_i old new
    refine (beginOp_mild k).bind fun _ t ht => ?_
    refine (hW.namei (hW.mild (Base.refl h₀.toCached) ht) old).bind fun r u hu => ?_
    cases r with
    | none => exact end_undone h₀.toCached hu
    | some i =>
      refine (hW.ilock hu (hW.held hu)).bind fun _ w hw => ?_
      obtain ⟨hw, hi, -⟩ := hw
      rw [ends_get_bind]
      refine .ite (fun _ => put_undone h₀.toCached hw) fun _ => ?_
      refine (addNlink_counted w i 1).bind fun _ x hx => ?_
      refine (iunlock_state x i).bind fun _ y hy => ?_
      obtain ⟨rfl, -⟩ := hy
      subst hx
      have hcached : Cached none [i] [] [] ((w.counted i 1).unlockedAt i) :=
        (hw.cached.counted List.mem_cons_self 1).unlock List.mem_cons_self (mem_locks List.not_mem_nil)
      have hW' := walks_base hcached
      have hbad : ∀ z, Base _ [i] [] [] [] z → Undone (linkBad i) k z := fun z => linkBad_undone h₀ hw hcached
      refine (hW'.namex (Base.refl hcached) new true).bind fun r z hz => ?_
      cases r with
      | none => exact hbad z hz
      | some r =>
        obtain ⟨dp, name⟩ := r
        refine (hW'.ilock hz (hW'.held hz)).bind fun _ a ha => ?_
        obtain ⟨ha, hdp, -⟩ := ha
        have hput : ∀ b, Base _ [i] [dp] [] [dp] b → Undone (do iunlockput dp; linkBad i) k b := fun b hb =>
          (hW'.iunlockput hb List.mem_cons_self (mem_locks hdp)).bind fun _ c hc => hbad c hc
        rw [ends_get_bind]
        refine .ite (fun _ => hput a ha) fun _ => ?_
        rw [ends_get_bind]
        have hlink : Ends (dirlink dp name (a.inode i).inum) a fun ok b =>
            ok = false → Base ((w.counted i 1).unlockedAt i) [i] [dp] [] [dp] b := by
          refine (hW'.dirlookup ha List.mem_cons_self name).bind fun r b hb => ?_
          cases r with
          | some r => exact (hW'.iput hb).bind fun _ c hc => .pure fun _ => hc.1
          | none =>
            rw [ends_get_bind]
            exact Ends.any.bind fun _ _ _ => .pure fun hok => absurd hok (by decide)
        refine hlink.bind fun ok b hb => .ite (fun _ => ?_) fun hok => hput b (hb (Bool.eq_false_iff.mpr hok))
        exact Ends.any.bind fun _ _ _ => Ends.any.bind fun _ _ _ => undone_zero (by decide)
  · exact .pure fun _ => Base.refl h₀.toCached

/-! ### Files -/

/-- Nothing is different but the files in `fs`, which were free and now have one reference each, to no inode. -/
structure Opened (k : Kernel) (fs : List Nat) (t : Kernel) : Prop where
  rest : t = { k with file := t.file }
  ref : ∀ f ∉ fs, (t.file f).ref = (k.file f).ref
  file : ∀ f ∉ fs, 0 < (k.file f).ref → t.file f = k.file f
  free : ∀ f ∈ fs, (k.file f).ref = 0
  one : ∀ f ∈ fs, (t.file f).ref = 1 ∧ (t.file f).type ≠ .inode

namespace Opened
variable {fs : List Nat}

theorem refl (k : Kernel) : Opened k [] k :=
  ⟨rfl, fun _ _ => rfl, fun _ _ _ => rfl, fun _ hf => absurd hf List.not_mem_nil, fun _ hf => absurd hf List.not_mem_nil⟩

theorem still (h : Opened k [] t) (H : List Nat) : Still H k t := by
  have hfile := fun f => h.file f List.not_mem_nil
  have href := fun f => h.ref f List.not_mem_nil
  have hrest := h.rest
  generalize t.file = file at *
  subst hrest
  exact ⟨href, hfile, rfl, fun _ => rfl, rfl, rfl, fun _ _ => rfl⟩

theorem rest_setFile (h : Opened k fs t) (g : File → File) :
    t.setFile f g = { k with file := (t.setFile f g).file } :=
  congrArg (fun u : Kernel => { u with file := (t.setFile f g).file }) h.rest

/-- A file without references is none of them. -/
theorem fresh (h : Opened k fs t) (hzero : (t.file f).ref = 0) : f ∉ fs := by
  intro hf
  rw [(h.one f hf).1] at hzero
  exact absurd hzero (by decide)

theorem alloc (h : Opened k fs t) (hzero : (t.file f).ref = 0) (htype : (t.file f).type ≠ .inode) :
    Opened k (f :: fs) (t.setFile f fun g => { g with ref := 1 }) := by
  have hf := h.fresh hzero
  refine ⟨?_, fun f' hf' => ?_, fun f' hf' hpos => ?_, fun f' hf' => ?_, fun f' hf' => ?_⟩
  · exact h.rest_setFile _
  · rw [List.mem_cons, not_or] at hf'
    rw [Kernel.setFile_of_ne hf'.1, h.ref f' hf'.2]
  · rw [List.mem_cons, not_or] at hf'
    rw [Kernel.setFile_of_ne hf'.1, h.file f' hf'.2 hpos]
  · rcases List.mem_cons.mp hf' with rfl | hf'
    · rw [← h.ref f' hf, hzero]
    · exact h.free f' hf'
  · rcases List.mem_cons.mp hf' with rfl | hf'
    · rw [Kernel.setFile_self]
      exact ⟨rfl, htype⟩
    · rw [Kernel.setFile_of_ne (ne_of_mem_of_not_mem hf' hf)]
      exact h.one f' hf'

theorem pipe (h : Opened k fs t) (hf : f ∈ fs) (writable : Bool) :
    Ends (setPipe f writable) t fun _ u => Opened k fs u := by
  refine .modify ⟨?_, fun f' hf' => ?_, fun f' hf' hpos => ?_, h.free, fun f' hf' => ?_⟩
  · exact h.rest_setFile _
  · rw [Kernel.setFile_of_ne (ne_of_mem_of_not_mem hf hf').symm, h.ref f' hf']
  · rw [Kernel.setFile_of_ne (ne_of_mem_of_not_mem hf hf').symm, h.file f' hf' hpos]
  · by_cases hff : f' = f
    · rw [hff, Kernel.setFile_self]
      exact ⟨(h.one f hf).1, FileType.noConfusion⟩
    · rw [Kernel.setFile_of_ne hff]
      exact h.one f' hf'

theorem close (h : Opened k fs t) (fs' : List Nat) (hf : f ∈ fs) (hfs : ∀ g, g ∈ fs' ↔ g ∈ fs ∧ g ≠ f) :
    Ends (fileclose f) t fun _ u => Opened k fs' u := by
  obtain ⟨hone, htype⟩ := h.one f hf
  refine (fileclose_state t f).mono fun _ u hu => ?_
  obtain ⟨rfl, -⟩ := hu
  rw [Kernel.closed, if_neg fun hand => htype hand.2]
  have hnot : ∀ g ∉ fs', g ≠ f → g ∉ fs := fun g hg hne hmem => hg ((hfs g).mpr ⟨hmem, hne⟩)
  refine ⟨?_, fun g hg => ?_, fun g hg hpos => ?_, fun g hg => h.free g ((hfs g).mp hg).1, fun g hg => ?_⟩
  · exact h.rest_setFile _
  · by_cases hgf : g = f
    · rw [hgf, Kernel.shut, Kernel.setFile_self, h.free f hf, hone]
      rfl
    · rw [Kernel.shut, Kernel.setFile_of_ne hgf, h.ref g (hnot g hg hgf)]
  · by_cases hgf : g = f
    · rw [hgf, h.free f hf] at hpos
      exact absurd hpos (by decide)
    · rw [Kernel.shut, Kernel.setFile_of_ne hgf, h.file g (hnot g hg hgf) hpos]
  · obtain ⟨hmem, hne⟩ := (hfs g).mp hg
    rw [Kernel.shut, Kernel.setFile_of_ne hne]
    exact h.one g hmem

theorem filealloc (h : Opened k fs t) (hinv : Inv .a3 H G L t) : Ends filealloc t fun r u => match r with
    | none => Opened k fs u
    | some f => f ∉ fs ∧ Opened k (f :: fs) u := by
  rw [Files.filealloc, ends_get_bind]
  split
  · exact .pure h
  · rename_i f hfind
    obtain ⟨hf, hp⟩ := find_lt hfind
    have hzero := of_decide_eq_true hp
    have htype : (t.file f).type ≠ .inode := fun ht => by
      have := hinv.closed f hf ht
      omega
    rw [ends_modify_bind]
    exact .pure ⟨h.fresh hzero, h.alloc hzero htype⟩

/-- The order of the files does not matter. -/
theorem swap {f g : Nat} (h : Opened k [f, g] t) : Opened k [g, f] t := by
  have hmem : ∀ x, x ∈ [g, f] ↔ x ∈ [f, g] := fun x => (List.Perm.swap f g []).mem_iff
  exact ⟨h.rest, fun x hx => h.ref x fun hx' => hx ((hmem x).mpr hx'), fun x hx => h.file x fun hx' => hx ((hmem x).mpr hx'),
    fun x hx => h.free x ((hmem x).mp hx), fun x hx => h.one x ((hmem x).mp hx)⟩

end Opened

/-- A descriptor that is taken and given back. -/
theorem Kernel.setFd_setFd (k : Kernel) {fd : Nat} (hnone : k.proc.ofile fd = none) (f : Option Nat) :
    (k.setFd fd f).setFd fd none = k := by
  have hofile : update (update k.proc.ofile fd f) fd none = k.proc.ofile := by
    rw [update_idem, ← hnone, update_eq_self]
  exact congrArg (fun ofile => { k with proc := { k.proc with ofile } }) hofile

theorem close_both {α : Type} {f g : Nat} (h : Opened k [f, g] t) (hne : f ≠ g) {m : M α} {Q : α → Kernel → Prop}
    (hm : ∀ u, Opened k [] u → Ends m u Q) : Ends (do fileclose f; fileclose g; m) t Q := by
  refine (h.close [g] List.mem_cons_self fun x => ?_).bind fun _ u hu => ?_
  · simp only [List.mem_cons, List.not_mem_nil, or_false]
    constructor
    · rintro rfl
      exact ⟨.inr rfl, hne.symm⟩
    · rintro ⟨hx, hxf⟩
      exact hx.resolve_left hxf
  · exact (hu.close [] List.mem_cons_self (by simp)).bind fun _ w hw => hm w hw

theorem pipealloc_opened (h : Inv .a3 [] [] [] k) (page : Bool) : Ends (pipealloc page) k fun r t => match r with
    | none => Opened k [] t
    | some (rf, wf) => rf ≠ wf ∧ Opened k [rf, wf] t := by
  refine ((filealloc_spec (steady_inv .a3) h).and ((Opened.refl k).filealloc h)).bind fun r t ht => ?_
  cases r with
  | none => exact .pure ht.2
  | some rf =>
    obtain ⟨⟨-, -, -, hinv⟩, -, ht⟩ := ht
    refine (ht.filealloc hinv).bind fun r u hu => ?_
    cases r with
    | none => exact (hu.close [] List.mem_cons_self (by simp)).bind fun _ w hw => .pure hw
    | some wf =>
      obtain ⟨hne, hu⟩ := hu
      rw [List.mem_singleton] at hne
      have hu := hu.swap
      refine .ite (fun _ => ?_) fun _ => close_both hu (Ne.symm hne) fun w hw => .pure hw
      refine (hu.pipe List.mem_cons_self false).bind fun _ w hw => ?_
      exact (hw.pipe (List.mem_cons_of_mem _ List.mem_cons_self) true).bind fun _ x hx => .pure ⟨Ne.symm hne, hx⟩

theorem sysPipe_opened (h : Inv .a3 [] [] [] k) (ok page : Bool) :
    Ends (sysPipe ok page) k fun r t => r = .int (-1) → Opened k [] t := by
  refine .ite (fun _ => ?_) fun _ => .pure fun _ => .refl k
  refine (pipealloc_opened h page).bind fun r t ht => ?_
  cases r with
  | none => exact .pure fun _ => ht
  | some r =>
    obtain ⟨rf, wf⟩ := r
    obtain ⟨hne, ht⟩ := ht
    have hclose : Ends (do fileclose rf; fileclose wf; return .int (-1)) t fun r t => r = Ret.int (-1) → Opened k [] t :=
      close_both ht hne fun w hw => .pure fun _ => hw
    refine (fdalloc_state t rf).bind fun fd u hu => ?_
    cases fd with
    | none => exact hu ▸ hclose
    | some fd =>
      obtain ⟨-, hnone, rfl⟩ := hu
      refine (fdalloc_state _ wf).bind fun fd' w hw => ?_
      cases fd' with
      | none =>
        rw [ends_modify_bind, hw, Kernel.setFd_setFd t hnone]
        exact hclose
      | some fd' => exact .pure fun hr => absurd (Ret.int.inj hr) (by decide)

theorem sysPipe_undone (h₀ : Cached none [] [] [] k) (ok page : Bool) : Undone (sysPipe ok page) k k := by
  refine ((sysPipe_opened h₀.inv ok page).and (sysPipe_spec (steady_cached none) h₀ ok page)).mono fun r t ht hr => ?_
  exact ⟨ht.2, (ht.1 hr).still []⟩

/-- The part of `sys_open` that has an inode. -/
def openFile (i omode : Nat) : M Ret := do
  match ← filealloc with
  | none =>
    iunlockput i
    endOp
    return .int (-1)
  | some f =>
    match ← fdalloc f with
    | none =>
      fileclose f
      iunlockput i
      endOp
      return .int (-1)
    | some fd =>
      iunlock i
      endOp
      modify fun k => k.setFile f fun g => { g with
        type := .inode
        ip := some i
        off := 0
        readable := !oWronly omode
        writable := oWronly omode || oRdwr omode }
      return .int fd

theorem sysOpen_eq (path : Name) (omode : Nat) : sysOpen (some path) omode = (do
    beginOp
    match ← openInode path omode with
    | none =>
      endOp
      return .int (-1)
    | some i => openFile i omode) := rfl

/-- Where `sys_open` cannot give a descriptor for its inode. -/
theorem open_undone (h₀ : Cached none [] [] [] k) (h : Base k [] [i] [] [i] t) (omode : Nat) :
    Undone (openFile i omode) k t := by
  have hJ := steady_cached none
  refine ((filealloc_spec hJ h.cached).and ((Opened.refl t).filealloc h.cached.inv)).bind fun r u hu => ?_
  cases r with
  | none => exact hu.1 ▸ put_undone h₀ h
  | some f =>
    obtain ⟨⟨hf, -, -, hu⟩, -, ho⟩ := hu
    refine (fdalloc_state u f).bind fun r w hw => ?_
    cases r with
    | none =>
      subst hw
      refine ((fileclose_spec hJ hu hf).and (ho.close [] List.mem_cons_self (by simp))).bind fun _ x hx => ?_
      exact put_undone h₀ ⟨hx.1, h.still.trans (hx.2.still [])⟩
    | some fd =>
      refine Ends.any.bind fun _ _ _ => Ends.any.bind fun _ _ _ => ?_
      rw [ends_modify_bind]
      exact .pure fun hr => absurd (Ret.int.inj hr) (by omega)

/-! ### Reading -/

theorem readi_mild (k : Kernel) (i off n : Nat) (io : Int) : Ends (readi i off n io) k fun _ t => Mild k t := by
  unfold readi
  rw [ends_get_bind]
  refine .ite (fun _ => .pure (.refl k)) fun _ => ?_
  rw [ends_get_bind]
  refine .ite (fun _ => .pure (.refl k)) fun _ => ?_
  refine .ite (fun _ => ?_) fun _ => .pure (.refl k)
  exact (bmapTo_mild k _ _).bind fun _ t ht => .pure ht

/-- Without the permission checks. -/
theorem forbidden_none (hv : k.version = .a3) (f bit : Nat) : Ends (forbidden f bit) k fun bad t => bad = false ∧ t = k := by
  rw [forbidden, ends_get_bind, if_pos hv]
  exact .pure ⟨rfl, rfl⟩

theorem fileread_undone (h₀ : Cached none [] [] [] k) (hf : f < nfile) (n : Nat) (io : Int) :
    Ends (fileread f n io) k fun r t => r = -1 → Base k [] [] [] [] t := by
  have hW := walks_base h₀
  rw [fileread, ends_get_bind]
  refine .ite (fun _ => .pure fun _ => Base.refl h₀) fun _ => ?_
  split
  · exact .pure fun _ => Base.refl h₀
  · exact .throw _
  · refine (fileIp_spec k f).bind fun i t ht => ?_
    obtain ⟨rfl, hip⟩ := ht
    refine (hW.ilock (Base.refl h₀) (h₀.inv.ips f hf i hip)).bind fun _ t ht => ?_
    obtain ⟨ht, hi, -⟩ := ht
    refine (readi_mild t i _ n io).bind fun r u hu => ?_
    have hu := hW.mild ht hu
    refine .ite (fun hr => ?_) fun _ => ?_
    · rw [ends_modify_bind]
      exact Ends.any.bind fun _ _ _ => .pure fun hneg => by omega
    · exact (hW.iunlock hu List.mem_cons_self (mem_locks hi)).bind fun _ w hw => .pure fun _ => hw.1

theorem sysRead_undone (h₀ : Cached none [] [] [] k) (fd : Int) (n : Option Nat) (io : Int) :
    Undone (sysRead fd n io) k k := by
  refine (argfd_spec k fd).bind fun r t ht => ?_
  obtain ⟨rfl, hr⟩ := ht
  split
  · rename_i f n
    obtain ⟨-, hofile⟩ := hr f rfl
    obtain ⟨hf, -⟩ := h₀.inv.ofile_pos List.mem_cons_self hofile
    refine (forbidden_none h₀.inv.version f 0).bind fun bad u hu => ?_
    obtain ⟨rfl, rfl⟩ := hu
    refine .ite (fun hbad => absurd hbad (by decide)) fun _ => ?_
    exact (fileread_undone h₀ hf n io).bind fun r w hw => .pure fun hr => hw (Ret.int.inj hr)
  · exact .pure fun _ => Base.refl h₀

theorem sysFstat_undone (h₀ : Cached none [] [] [] k) (fd : Int) (st : Bool) : Undone (sysFstat fd st) k k := by
  refine (argfd_spec k fd).bind fun r t ht => ?_
  obtain ⟨rfl, hr⟩ := ht
  cases r with
  | none => exact .pure fun _ => Base.refl h₀
  | some f =>
    refine .ite (fun _ => ?_) fun _ => .pure fun _ => Base.refl h₀
    have hstat : Ends (filestat f) t fun ok u => ok = false → u = t := by
      rw [filestat, ends_get_bind]
      refine .ite (fun _ => ?_) fun _ => .pure fun _ => rfl
      exact Ends.any.bind fun _ _ _ => Ends.any.bind fun _ _ _ => Ends.any.bind fun _ _ _ =>
        .pure fun hok => absurd hok (by decide)
    refine hstat.bind fun ok u hu => .ite (fun _ => .pure fun hr => ?_) fun hok => ?_
    · exact absurd (Ret.int.inj hr) (by decide)
    · rw [hu (Bool.eq_false_iff.mpr hok)]
      exact .pure fun _ => Base.refl h₀

theorem sysClose_undone (h₀ : Cached none [] [] [] k) (fd : Int) : Undone (sysClose fd) k k := by
  refine (argfd_spec k fd).bind fun r t ht => ?_
  obtain ⟨rfl, -⟩ := ht
  cases r with
  | none => exact .pure fun _ => Base.refl h₀
  | some f =>
    rw [ends_modify_bind]
    exact undone_zero (by decide)

theorem sysExec_undone (h₀ : Cached none [] [] [] k) (path : Option Name) (args loads : Bool) :
    Undone (sysExec path args loads) k k := by
  have hW := walks_base h₀
  cases path with
  | none => exact .pure fun _ => Base.refl h₀
  | some path =>
    unfold sysExec
    dsimp only
    rw [Undone, ends_get_bind, if_pos h₀.inv.version]
    refine .ite (fun _ => ?_) fun _ => .pure fun _ => Base.refl h₀
    refine (beginOp_mild k).bind fun _ t ht => ?_
    refine (hW.namei (hW.mild (Base.refl h₀) ht) path).bind fun r u hu => ?_
    cases r with
    | none => exact end_undone h₀ hu
    | some i =>
      refine (hW.ilock hu (hW.held hu)).bind fun _ w hw => ?_
      obtain ⟨hw, hi, -⟩ := hw
      refine (hW.iunlockput hw List.mem_cons_self (mem_locks hi)).bind fun _ x hx => ?_
      exact (endOp_mild x).bind fun _ y hy => .pure fun _ => hW.mild hx hy

/-! ### Making an inode -/

/-- The path leads to a name that its directory has not. -/
def Kernel.Makes (k : Kernel) (path : Name) : Prop := ∃ n name, k.leads path true = some (n, name) ∧
  ((k.disk.entries n).find? fun e => decide (e.inum ≠ 0 ∧ e.name = name)) = none

/-- The inode is there, and has links. -/
structure There (n : Nat) (H G L : List Nat) (k : Kernel) : Prop where
  cached : Cached none H G L k
  type : k.disk.type n ≠ .free
  nlink : k.disk.nlink n ≠ 0

theorem There.of_disk (h : There n H G L k) {H' G' L' : List Nat} (hc : Cached none H' G' L' t) (hd : t.disk = k.disk) :
    There n H' G' L' t := ⟨hc, by rw [hd]; exact h.type, by rw [hd]; exact h.nlink⟩

theorem steady_there (n : Nat) : Steady .a3 (There n) where
  inv h := h.cached.inv
  same h hs := h.of_disk ((steady_cached none).same h.cached hs) hs.disk
  table h hseats hinv := h.of_disk ((steady_cached none).table h.cached hseats hinv) rfl
  consult i h := h.of_disk ((steady_cached none).consult i h.cached) rfl
  swap h := h.of_disk ((steady_cached none).swap h.cached) rfl
  grab h hi hpos := h.of_disk (h.cached.grab hi hpos) rfl
  recycle h hi hzero hnew := h.of_disk (h.cached.recycle hi hzero hnew) rfl
  lock h hi hpos _ hfree := h.of_disk (h.cached.lockAt hi hpos hfree) rfl
  unlock h hi hL := h.of_disk (h.cached.unlock hi hL) rfl
  drop {H _ _ k i} h hl := by
    by_cases hun : k.Unused i
    · have hi := h.cached.inv.held i List.mem_cons_self
      have hpos := h.cached.inv.pos_of_held List.mem_cons_self
      have hne : n ≠ (k.inode i).inum := by
        rintro rfl
        exact h.nlink ((h.cached.copy i hi hpos hun.1).symm.trans hun.2.1)
      have hdisk := Kernel.disk_dropped hun h.cached.inv.version
      refine ⟨h.cached.drop hl, ?_, ?_⟩
      · rw [hdisk, Disk.put_type_of_ne hne]
        exact h.type
      · rw [hdisk, Disk.put_nlink_of_ne hne]
        exact h.nlink
    · refine h.of_disk (h.cached.drop hl) ?_
      rw [Kernel.dropped_kept hun]
      rfl
  flush {_ _ _ k i} h hi := by
    obtain ⟨hlt, hvalid, hpos⟩ := h.cached.inv.lock i hi
    refine h.of_disk ((steady_cached none).flush h.cached hi) ?_
    rw [Kernel.disk_updated h.cached.inv hi (f := id) fun _ => rfl]
    exact (congrArg (Disk.setNlink _ _) (h.cached.copy _ hlt hpos hvalid)).trans
      (congrArg (fun l => (⟨_, l, _⟩ : Disk)) (update_eq_self ..))

/-- The end of `create` where the name is new: a file is there under a number that was free. -/
theorem create_new (h : Cached none [dp] [] [dp] k) {name : Name} (type : Kind) (major minor : Int)
    (hfind : ((k.disk.entries (k.inode dp).inum).find? fun e => decide (e.inum ≠ 0 ∧ e.name = name)) = none) :
    Ends (do
      let ip ← ialloc ((← get).inode dp).dev type
      ilock ip
      modify fun k => k.setInode ip fun i => { i with copy := { i.copy with major, minor, nlink := 1 } }
      iupdate ip
      if type = .dir then makeDots dp ip
      if !(← dirlink dp name ((← get).inode ip).inum) then throw .dirlink
      iunlockput dp
      return some ip) k fun r t => ∃ i, r = some i ∧
        (type = .file → ∃ n, k.disk.type n = .free ∧ There n [i] [] [i] t) := by
  obtain ⟨hlt, -, hpos⟩ := h.inv.lock dp List.mem_cons_self
  rw [ends_get_bind, h.inv.dev dp hlt hpos]
  refine (ialloc_state h type).bind fun i x hx => ?_
  obtain ⟨n, hn, -, -, hx, hxd, hxi, hxH⟩ := hx
  have hpn : (k.inode dp).inum ≠ n := fun hpn => h.type_ne List.mem_cons_self (hpn ▸ hn)
  refine (ilock_spec (steady_cached (some n)) hx (hx.inv.held i List.mem_cons_self)).bind fun _ y hy => ?_
  obtain ⟨hy, hi, rfl⟩ := hy
  have hyi := ((calm_locked x i [i]).inum i (.inl List.mem_cons_self)).trans hxi
  have hydp := ((calm_locked x i [dp]).inum dp (.inl List.mem_cons_self)).trans (hxH dp List.mem_cons_self)
  have hyd : (x.lockedAt i).disk = k.disk.put n type [] := hxd
  generalize x.lockedAt i = y at *
  rw [ends_modify_bind]
  refine (iupdate_state y i fun d => { d with major, minor, nlink := 1 }).bind fun _ z hz => ?_
  by_cases hfile : type = .file
  · subst hfile
    have hzc : Cached none [i, dp] [] [i, dp] z := by
      rw [hz]
      refine hy.update List.mem_cons_self (fun _ => rfl) (fun _ => rfl) fun m hm _ hnm => ?_
      exact hm ((Option.some.inj hnm).symm.trans hyi.symm)
    have hzd : z.disk = (k.disk.put n .file []).setNlink n 1 := by
      rw [hz, Kernel.disk_updated hy.inv List.mem_cons_self (f := fun d => { d with major, minor, nlink := 1 })
        fun _ => rfl, hyi, hyd]
    have hzdp : (z.inode dp).inum = (k.inode dp).inum := by
      rw [hz, Kernel.inum_updated]
      exact hydp
    have hmdp : dp ∈ [i, dp] := List.mem_cons_of_mem _ List.mem_cons_self
    have hzes : z.disk.entries (z.inode dp).inum = k.disk.entries (k.inode dp).inum := by
      rw [hzd, hzdp]
      exact @Disk.put_entries_of_ne _ n .file hpn k.disk []
    refine .ite (fun hdir => absurd hdir (by decide)) fun _ => ?_
    rw [ends_get_bind]
    refine (dirlink_new hzc hmdp _ (hzes.symm ▸ hfind)).bind fun ok a ha => ?_
    obtain ⟨-, hac, -, had⟩ := ha
    refine .ite (fun _ => .throw _) fun _ => ?_
    have htype : a.disk.type n = .file := by
      rw [had, hzd]
      exact Disk.put_type k.disk n .file []
    have hnlink : a.disk.nlink n = 1 := by
      rw [had, hzd]
      exact Disk.setNlink_self ..
    have hthere : There n [i, dp] [] [i, dp] a := by
      refine ⟨hac, ?_, ?_⟩
      · rw [htype]
        decide
      · rw [hnlink]
        decide
    refine (iunlockput_spec (steady_there n) ((steady_there n).swap hthere) hmdp (locks_pair hi)).bind fun _ b hb => ?_
    exact .pure ⟨i, rfl, fun _ => ⟨n, hn, hb⟩⟩
  · have hrest : ∀ a, Ends (do
        if !(← dirlink dp name ((← get).inode i).inum) then throw .dirlink
        iunlockput dp
        return some i) a fun r t => ∃ i, r = some i ∧
          (type = .file → ∃ n, k.disk.type n = .free ∧ There n [i] [] [i] t) := by
      intro a
      rw [ends_get_bind]
      refine Ends.any.bind fun ok _ _ => .ite (fun _ => .throw _) fun _ => ?_
      exact Ends.any.bind fun _ _ _ => .pure ⟨i, rfl, fun h => absurd h hfile⟩
    exact .ite (fun _ => Ends.any.bind fun _ _ _ => hrest _) fun _ => hrest z

/-- The inode that `create` returns is new, or the file that was there. -/
theorem create_base (h₀ : Cached none [] [] [] k) (h : Base k [] [] [] [] t) (path : Name) (type : Kind)
    (major minor : Int) : Ends (create path type major minor) t fun r u => match r with
      | none => ¬k.Makes path ∧ Base k [] [] [] [] u
      | some i => (k.Makes path ∧ (type = .file → ∃ n, k.disk.type n = .free ∧ There n [i] [] [i] u)) ∨
          (¬k.Makes path ∧ type = .file ∧ Base k [] [i] [] [i] u) := by
  have hW := walks_base h₀
  refine (h.namex h₀ path true).bind fun r u hu => ?_
  obtain ⟨hleads, hu⟩ := hu
  cases r with
  | none =>
    refine .pure ⟨?_, hu⟩
    rintro ⟨n, name, hl, -⟩
    cases hleads.trans hl
  | some r =>
    obtain ⟨dp, name⟩ := r
    refine (hW.ilock hu (hW.held hu)).bind fun _ w hw => ?_
    obtain ⟨hw, hdp, rfl⟩ := hw
    have hleads : k.leads path true = some (((u.lockedAt dp).inode dp).inum, name) := by
      rw [(calm_locked u dp [dp]).inum dp (.inl List.mem_cons_self)]
      exact hleads.symm
    generalize u.lockedAt dp = w at *
    have hfind := (dirlookup_firm firmly_cached hw.cached List.mem_cons_self name).and
      (hW.dirlookup hw List.mem_cons_self name)
    refine hfind.bind fun r x hx => ?_
    obtain ⟨⟨hdir, hfind⟩, hx⟩ := hx
    cases r with
    | some r =>
      obtain ⟨i, off⟩ := r
      obtain ⟨-, e, -, hfind, -⟩ := hfind
      have hmakes : ¬k.Makes path := by
        rintro ⟨n, name', hl, hnone⟩
        obtain ⟨rfl, rfl⟩ := Prod.mk.inj (Option.some.inj (hleads.symm.trans hl))
        rw [hw.still.disk] at hfind
        cases hnone.symm.trans hfind
      refine (hW.iunlockput (hW.swap hx) List.mem_cons_self (mem_locks hdp)).bind fun _ y hy => ?_
      refine (hW.ilock hy (hW.held hy)).bind fun _ z hz => ?_
      obtain ⟨hz, hi, -⟩ := hz
      rw [ends_get_bind]
      refine .ite (fun htype => .pure (.inr ⟨hmakes, htype.1, hz⟩)) fun _ => ?_
      exact (hW.iunlockput hz List.mem_cons_self (mem_locks hi)).bind fun _ a ha => .pure ⟨hmakes, ha⟩
    | none =>
      obtain ⟨hs, hfind⟩ := hfind
      have hmakes : k.Makes path := by
        refine ⟨_, name, hleads, ?_⟩
        rw [← hw.still.disk]
        exact hfind
      have hxdp : (x.inode dp).inum = (w.inode dp).inum := by rw [hs.inode]
      rw [← hs.disk, ← hxdp] at hfind
      refine (create_new hx.cached type major minor hfind).mono fun r y hy => ?_
      obtain ⟨i, rfl, hfile⟩ := hy
      refine .inl ⟨hmakes, fun hf => ?_⟩
      obtain ⟨n, hn, hy⟩ := hfile hf
      rw [hx.still.disk] at hn
      exact ⟨n, hn, hy⟩

theorem sysMake_undone (h₀ : Cached none [] [] [] k) (path : Option Name) (type : Kind) (major minor : Int) :
    Undone (sysMake path type major minor) k k := by
  refine (beginOp_mild k).bind fun _ t ht => ?_
  have ht := (walks_base h₀).mild (Base.refl h₀) ht
  cases path with
  | none => exact end_undone h₀ ht
  | some path =>
    refine (create_base h₀ ht path type _ _).bind fun r u hu => ?_
    cases r with
    | none => exact end_undone h₀ hu.2
    | some i => exact Ends.any.bind fun _ _ _ => undone_zero (by decide)

/-- Where `sys_open` has made an inode, but cannot give a descriptor for it. -/
theorem open_there (h : There n [i] [] [i] t) (omode : Nat) :
    Ends (openFile i omode) t fun r u => r = .int (-1) → There n [] [] [] u := by
  have hJ := steady_there n
  refine (filealloc_spec hJ h).bind fun r u hu => ?_
  cases r with
  | none => exact (putEnd_spec hJ (hu ▸ h) List.not_mem_nil _).mono fun _ _ hw _ => hw
  | some f =>
    obtain ⟨hf, -, -, hu⟩ := hu
    refine (fdalloc_spec hJ hu hf).bind fun r w hw => ?_
    cases r with
    | none =>
      refine (fileclose_spec hJ (hw ▸ hu) hf).bind fun _ x hx => ?_
      exact (putEnd_spec hJ hx List.not_mem_nil _).mono fun _ _ hy _ => hy
    | some fd =>
      refine Ends.any.bind fun _ _ _ => Ends.any.bind fun _ _ _ => ?_
      rw [ends_modify_bind]
      exact .pure fun hr => absurd (Ret.int.inj hr) (by omega)

/-- A call that makes a file. -/
def Call.makes (k : Kernel) (c : Call) : Prop := ∃ path omode, c = .open (some path) omode ∧ oCreate omode = true ∧
  k.Makes path

theorem sysOpen_undone (h₀ : Cached none [] [] [] k) (path : Option Name) (omode : Nat) :
    Ends (sysOpen path omode) k fun r t => r = .int (-1) →
      (¬Call.makes k (.open path omode) ∧ Base k [] [] [] [] t) ∨
        (Call.makes k (.open path omode) ∧ ∃ n, k.disk.type n = .free ∧ There n [] [] [] t) := by
  have hW := walks_base h₀
  cases path with
  | none =>
    refine .pure fun _ => .inl ⟨?_, Base.refl h₀⟩
    rintro ⟨path, omode, hc, -⟩
    cases hc
  | some path =>
    have hcall : Call.makes k (.open path omode) ↔ oCreate omode = true ∧ k.Makes path := by
      constructor
      · rintro ⟨path', omode', hc, h⟩
        obtain ⟨hp, rfl⟩ := Call.open.inj hc
        exact Option.some.inj hp ▸ h
      · exact fun h => ⟨path, omode, rfl, h⟩
    rw [sysOpen_eq, hcall]
    refine (beginOp_mild k).bind fun _ t ht => ?_
    have ht := hW.mild (Base.refl h₀) ht
    have hopen : Ends (openInode path omode) t fun r u => match r with
        | none => ¬(oCreate omode = true ∧ k.Makes path) ∧ Base k [] [] [] [] u
        | some i => ((oCreate omode = true ∧ k.Makes path) ∧ ∃ n, k.disk.type n = .free ∧ There n [i] [] [i] u) ∨
            (¬(oCreate omode = true ∧ k.Makes path) ∧ Base k [] [i] [] [i] u) := by
      refine .ite (fun ho => ?_) fun ho => ?_
      · refine (create_base h₀ ht path .file 0 0).mono fun r u hu => ?_
        cases r with
        | none => exact ⟨fun h => hu.1 h.2, hu.2⟩
        | some i =>
          rcases hu with ⟨hm, hn⟩ | ⟨hm, -, hu⟩
          · exact .inl ⟨⟨ho, hm⟩, hn rfl⟩
          · exact .inr ⟨fun h => hm h.2, hu⟩
      · refine (hW.namei ht path).bind fun r u hu => ?_
        cases r with
        | none => exact .pure ⟨fun h => ho h.1, hu⟩
        | some i =>
          refine (hW.ilock hu (hW.held hu)).bind fun _ w hw => ?_
          obtain ⟨hw, hi, -⟩ := hw
          rw [ends_get_bind]
          refine .ite (fun _ => ?_) fun _ => .pure (.inr ⟨fun h => ho h.1, hw⟩)
          refine (hW.iunlockput hw List.mem_cons_self (mem_locks hi)).bind fun _ x hx => ?_
          exact .pure ⟨fun h => ho h.1, hx⟩
    refine hopen.bind fun r u hu => ?_
    cases r with
    | none => exact (end_undone h₀ hu.2).mono fun r w hw hr => .inl ⟨hu.1, hw hr⟩
    | some i =>
      rcases hu with ⟨hm, n, hn, hu⟩ | ⟨hm, hu⟩
      · exact (open_there hu omode).mono fun r w hw hr => .inr ⟨hm, n, hn, hw hr⟩
      · exact (open_undone h₀ hu omode).mono fun r w hw hr => .inl ⟨hm, hw hr⟩

/-! ### Calls -/

theorem perform_undone (h : Known [] [] [] k) (c : Call) (hknown : c.known .a3 = true)
    (hwrite : ∀ fd src io, c ≠ .write fd src io) : Ends c.perform k fun r t => r = .int (-1) →
      (¬c.makes k ∧ Base k [] [] [] [] t) ∨ (c.makes k ∧ ∃ n, k.disk.type n = .free ∧ There n [] [] [] t) := by
  have h₀ := h.toCached
  have hplain : ∀ {m : M Ret}, (∀ path omode, c ≠ .open path omode) → Undone m k k →
      Ends m k fun r t => r = .int (-1) →
        (¬c.makes k ∧ Base k [] [] [] [] t) ∨ (c.makes k ∧ ∃ n, k.disk.type n = .free ∧ There n [] [] [] t) := by
    intro m hc hm
    refine hm.mono fun r t ht hr => .inl ⟨?_, ht hr⟩
    rintro ⟨path, omode, hopen, -⟩
    exact hc _ _ hopen
  cases c with
  | «open» path omode => exact sysOpen_undone h₀ path omode
  | close fd => exact hplain (by simp) (sysClose_undone h₀ fd)
  | dup fd => exact hplain (by simp) (sysDup_undone h₀ fd)
  | pipe ok page => exact hplain (by simp) (sysPipe_undone h₀ ok page)
  | read fd n io => exact hplain (by simp) (sysRead_undone h₀ fd n io)
  | write fd src io => exact absurd rfl (hwrite fd src io)
  | fstat fd st => exact hplain (by simp) (sysFstat_undone h₀ fd st)
  | link old new => exact hplain (by simp) (sysLink_undone h old new)
  | unlink path => exact hplain (by simp) (sysUnlink_undone h₀ path)
  | mkdir path => exact hplain (by simp) (sysMake_undone h₀ path .dir 0 0)
  | mknod path major minor => exact hplain (by simp) (sysMake_undone h₀ path .dev major minor)
  | chdir path => exact hplain (by simp) (sysChdir_undone h₀ path)
  | chmod path mode => exact absurd hknown (by simp [Call.known])
  | exec path args loads => exact hplain (by simp) (sysExec_undone h₀ path args loads)

/-- A call other than `write` that returns -1 has changed something just if it is an `open` that makes a file. -/
theorem failed_unchanged (h : Reaches Kernel.step (img.boot .a3) k) {c : Call} (hknown : c.known .a3 = true)
    (hwrite : ∀ fd src io, c ≠ .write fd src io) (hc : c.perform k = .ok (.int (-1)) t) :
    Unchanged k t ↔ ¬c.makes k := by
  have hk := known_reaches h
  constructor
  · intro hsame hmakes
    rcases (perform_undone hk c hknown hwrite).ok hc rfl with ⟨hno, -⟩ | ⟨-, n, hfree, ht⟩
    · exact hno hmakes
    · exact ht.type (hsame.disk.symm ▸ hfree)
  · intro hno
    rcases (perform_undone hk c hknown hwrite).ok hc rfl with ⟨-, ht⟩ | ⟨hmakes, -⟩
    · exact ht.unchanged hk.toCached
    · exact absurd hmakes hno

/-- The process has no descriptor left for the file that it makes. -/
theorem failed_unchanged_full : ∃ k t, Run.exec Kernel.step (Image.shell.boot .a3)
    (List.replicate 16 (.call (.open (some [slash]) 0))) = some k ∧
      (Call.open (some [120]) 512).perform k = .ok (.int (-1)) t ∧ ¬Unchanged k t := by
  have hrun : (Run.exec Kernel.step (Image.shell.boot .a3) (List.replicate 16 (.call (.open (some [slash]) 0)))).map
      (fun k => (k.leads [120] true, (k.disk.entries 1).find? fun e => decide (e.inum ≠ 0 ∧ e.name = [120]),
        match (Call.open (some [120]) 512).perform k with
        | .ok r _ => some r
        | .error _ _ => none)) = some (some (1, [120]), none, some (.int (-1))) := by
    decide
  obtain ⟨k, hk, hr⟩ := Option.map_eq_some_iff.mp hrun
  obtain ⟨hleads, hrest⟩ := Prod.mk.inj hr
  obtain ⟨hfind, hret⟩ := Prod.mk.inj hrest
  split at hret
  · rename_i r t ht
    rw [Option.some.inj hret] at ht
    refine ⟨k, t, hk, ht, fun hsame => ?_⟩
    have hmakes : (Call.open (some [120]) 512).makes k := ⟨[120], 512, rfl, by decide, 1, [120], hleads, hfind⟩
    exact (failed_unchanged ⟨_, hk⟩ (by decide) (by simp) ht).mp hsame hmakes
  · exact absurd hret (by simp)

end Xv6.Files
