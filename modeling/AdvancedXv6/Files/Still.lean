import AdvancedXv6.Files.Known

/-! What a call that fails may leave behind: other entries of the inode cache without references. -/

namespace Xv6.Files
open Function Effect

variable {v : Version} {H H₀ G G₀ L L₀ : List Nat} {k k₀ t u : Kernel} {i j f n : Nat}

/-- Files in use, inodes, directories, contents and processes are the same, and the references in `H` and those of files and
current directories are to the same inodes. -/
structure Still (H : List Nat) (k t : Kernel) : Prop where
  ref : ∀ f, (t.file f).ref = (k.file f).ref
  file : ∀ f, 0 < (k.file f).ref → t.file f = k.file f
  disk : t.disk = k.disk
  bytes : ∀ n, (t.data n).bytes = (k.data n).bytes
  proc : t.proc = k.proc
  others : t.others = k.others
  inum : ∀ i, i ∈ H ∨ 0 < k.uses i → (t.inode i).inum = (k.inode i).inum

namespace Still

theorem refl (H : List Nat) (k : Kernel) : Still H k k :=
  ⟨fun _ => rfl, fun _ _ => rfl, rfl, fun _ => rfl, rfl, rfl, fun _ _ => rfl⟩

theorem live (h : Still H k t) (f : Nat) : t.Live f ↔ k.Live f := by
  rw [Kernel.Live, Kernel.Live, h.ref]
  exact and_congr_right fun hpos => by rw [h.file f hpos]

theorem procs (h : Still H k t) : t.procs = k.procs := by rw [Kernel.procs, Kernel.procs, h.proc, h.others]

theorem uses (h : Still H k t) (i : Nat) : t.uses i = k.uses i := by
  rw [Kernel.uses, Kernel.uses, h.procs]
  congr 1
  refine List.countP_congr fun f _ => ?_
  rw [decide_eq_true_iff, decide_eq_true_iff, h.live]
  exact and_congr_right fun hlive => by rw [h.file f hlive.1]

theorem trans (h : Still H k t) (h' : Still H t u) : Still H k u := by
  refine ⟨fun f => (h'.ref f).trans (h.ref f), fun f hpos => ?_, h'.disk.trans h.disk, fun n => (h'.bytes n).trans (h.bytes n), h'.proc.trans h.proc,
    h'.others.trans h.others, fun i hi => ?_⟩
  · exact (h'.file f ((h.ref f).symm ▸ hpos)).trans (h.file f hpos)
  · rw [h'.inum i (hi.imp_right fun huse => (h.uses i).symm ▸ huse), h.inum i hi]

theorem mild (h : Mild k t) (H : List Nat) : Still H k t :=
  ⟨fun f => by rw [h.file], fun f _ => by rw [h.file], h.toSame.disk, h.bytes, h.proc, h.others,
    fun i _ => by rw [h.inode]⟩

/-- An entry of the cache changes, and keeps its number if that matters. -/
theorem setInode (k : Kernel) {g : Inode → Inode} (hg : i ∈ H ∨ 0 < k.uses i → (g (k.inode i)).inum = (k.inode i).inum) :
    Still H k (k.setInode i g) := by
  refine ⟨fun _ => rfl, fun _ _ => rfl, rfl, fun _ => rfl, rfl, rfl, fun j hj => ?_⟩
  by_cases hji : j = i
  · subst hji
    rw [Kernel.setInode_self, hg hj]
  · rw [Kernel.setInode_of_ne hji]

/-- A path leads to where it has led. -/
theorem leads (h : Still H k t) (path : Name) (np : Bool) : t.leads path np = k.leads path np := by
  have huse : 0 < k.uses k.proc.cwd := by
    refine Nat.add_pos_right _ (List.countP_pos_iff.mpr ⟨k.proc, List.mem_cons_self, decide_eq_true rfl⟩)
  have hstart : t.start path = k.start path := by
    rw [Kernel.start, Kernel.start, h.proc, h.inum _ (.inr huse)]
  rw [Kernel.leads, Kernel.leads, h.disk, hstart]

end Still

/-- The kernel is where it was in the state `k₀`, with the references `H₀`, but for more references. -/
structure Base (k₀ : Kernel) (H₀ H G L : List Nat) (t : Kernel) : Prop where
  cached : Cached none (H ++ H₀) G L t
  still : Still H₀ k₀ t

/-- The inode of a reference that is dropped has links, or a reference from the beginning. -/
theorem Base.not_unused (h₀ : Cached none H₀ G₀ L₀ k₀) (h : Base k₀ H₀ (i :: H) G L t) : ¬t.Unused i := by
  have hinv := h.cached.inv
  have hlt := hinv.held i List.mem_cons_self
  have hpos := hinv.pos_of_held List.mem_cons_self
  rintro ⟨hvalid, hzero, hone⟩
  obtain ⟨htype, -, hfree⟩ := hinv.cached i hlt hpos hvalid
  have hlink := (h.cached.copy i hlt hpos hvalid).symm.trans hzero
  have htype : t.disk.type (t.inode i).inum ≠ .free := fun hf => hfree (htype.trans hf)
  rw [h.still.disk] at hlink htype
  obtain ⟨j, hj, hposj, hjn⟩ := h₀.kept _ htype hlink (by simp)
  have hrefs := h₀.inv.refs j hj
  have hmem : j ∈ H₀ ∨ 0 < k₀.uses j := by
    by_contra hno
    rw [not_or, ← List.count_eq_zero] at hno
    omega
  have hrefs' := hinv.refs j hj
  rw [h.still.uses, List.cons_append, List.count_cons, List.count_append] at hrefs'
  have hij : i = j := hinv.unique i hlt j hj hpos (by omega) (hjn.symm.trans (h.still.inum j hmem).symm)
  subst hij
  rw [beq_self_eq_true, if_pos rfl] at hrefs'
  have hcount : 0 < k₀.uses i + H₀.count i := by
    rcases hmem with hm | hm
    · exact Nat.add_pos_right _ (List.count_pos_iff.mpr hm)
    · exact Nat.add_pos_left hm _
  omega

/-- Walks that give back what they take change nothing. -/
theorem walks_base (h₀ : Cached none H₀ G₀ L₀ k₀) : Walks .a3 (Base k₀ H₀) where
  inv h := ⟨_, fun _ hi => List.mem_append_left _ hi, h.cached.inv⟩
  mild h hm := ⟨(steady_cached none).same h.cached hm.toSame, h.still.trans (.mild hm H₀)⟩
  swap h := ⟨(steady_cached none).swap h.cached, h.still⟩
  grab h hi hpos := ⟨h.cached.grab hi hpos, h.still.trans (.setInode _ fun _ => rfl)⟩
  recycle {H _ _ k i inum} h hi hzero hnew := by
    refine ⟨h.cached.recycle hi hzero hnew, h.still.trans (.setInode _ fun hm => ?_)⟩
    obtain ⟨-, huses, hcount⟩ := h.cached.inv.idle hi hzero
    rw [List.count_append] at hcount
    rcases hm with hm | hm
    · have := List.count_pos_iff.mpr hm
      omega
    · omega
  lock h hi hpos _ hfree := ⟨h.cached.lockAt hi hpos hfree, h.still.trans (.setInode _ fun _ => rfl)⟩
  unlock h hi hL := ⟨h.cached.unlock hi hL, h.still.trans (.setInode _ fun _ => rfl)⟩
  drop {H _ _ k i} h hl := by
    refine ⟨h.cached.drop hl, ?_⟩
    rw [Kernel.dropped_kept (h.not_unused h₀)]
    exact h.still.trans (.setInode _ fun _ => rfl)

theorem Base.refl (h : Cached none H G L k) : Base k H [] G L k := ⟨h, .refl H k⟩

/-- `namex` borrows, and returns where the path leads. -/
theorem Base.namex (h₀ : Cached none H₀ G₀ L₀ k₀) (h : Base k₀ H₀ H G L t) (path : Name) (np : Bool) :
    Ends (namex path np) t fun r u => r.map (fun r => ((u.inode r.1).inum, r.2)) = k₀.leads path np ∧ match r with
      | none => Base k₀ H₀ H G L u
      | some (i, _) => Base k₀ H₀ (i :: H) G L u := by
  refine (((walks_base h₀).namex h path np).and (namex_walk firmly_cached h.cached path np)).mono fun r u hu => ?_
  rw [← h.still.leads]
  exact ⟨hu.2.2.1, hu.1⟩

end Xv6.Files
