import AdvancedXv6.Files.LinkSpec

/-! The references to inodes over runs: they are those of open files and current directories, unless
`exec` passes its permission check. -/

namespace Xv6.Files
open Function Effect Run

variable {v : Version} {H : List Nat} {k t : Kernel} {e : Event} {es : List Event} {img : Image}

theorem boot_inode (img : Image) (v : Version) {i : Nat} (hi : 0 < ((img.boot v).inode i).ref) : i = 0 := by
  by_contra hne
  simp [Image.boot, hne] at hi

theorem boot_uses (img : Image) (v : Version) (i : Nat) :
    (img.boot v).uses i = if 0 = i then 1 else 0 := by
  have hfiles : (List.range nfile).countP (fun f => decide ((img.boot v).Live f ∧
      ((img.boot v).file f).ip = some i)) = 0 := by
    refine List.countP_eq_zero.mpr fun f _ => ?_
    simp [Kernel.Live, Image.boot]
  rw [Kernel.uses, hfiles, Nat.zero_add]
  simp [Kernel.procs, Image.boot, List.countP_cons]

theorem inv_boot (img : Image) (v : Version) : Inv v [] [] [] (img.boot v) where
  version := rfl
  cwd p hp := by
    rw [List.mem_singleton.mp hp]
    exact (by decide : 0 < ninode)
  ofile p hp fd f hf := by
    rw [List.mem_singleton.mp hp] at hf
    exact absurd hf (by simp [Image.boot])
  held i hi := absurd hi List.not_mem_nil
  opened f _ hf := absurd hf.1 (by simp [Image.boot])
  closed f _ hf := absurd hf (by simp [Image.boot])
  ips f _ i hi := absurd hi (by simp [Image.boot])
  refs i _ := by
    rw [boot_uses, List.count_nil]
    by_cases hi : i = 0
    · simp [Image.boot, hi]
    · simp [Image.boot, hi, Ne.symm hi]
  files f _ := by
    simp [Image.boot, Kernel.descriptors, Kernel.procs, Proc.descriptors]
  unique i _ j _ hposi hposj _ := (boot_inode img v hposi).trans (boot_inode img v hposj).symm
  dev i _ hpos := by
    rw [boot_inode img v hpos]
    rfl
  locked i _ := by
    by_cases hi : i = 0 <;> simp [Image.boot, hi]
  lock i hi := absurd hi List.not_mem_nil
  cached i _ hpos hvalid := by
    rw [boot_inode img v hpos] at hvalid
    exact absurd hvalid (by simp [Image.boot])
  perm n hn := by
    have : (img.dinode n).perm = 0 := by
      rw [Image.dinode]
      split
      · rfl
      · split <;> rfl
    rw [Image.boot]
    dsimp only
    rw [this, granted]
    rfl

theorem step_inv (h : Inv v H [] [] k) (ht : k.step e = some t) :
    (Inv v H [] [] t ∧ ¬e.passes v k) ∨ ((∃ i, Inv v (i :: H) [] [] t) ∧ e.passes v k) :=
  step_stable (stable_inv v) (fun mode h hi => h.chmod hi mode) h ht

theorem step_exists_inv (h : Inv v H [] [] k) (ht : k.step e = some t) : ∃ H, Inv v H [] [] t := by
  obtain ⟨ht, -⟩ | ⟨⟨i, ht⟩, -⟩ := step_inv h ht
  · exact ⟨H, ht⟩
  · exact ⟨i :: H, ht⟩

/-- In every reachable state the references are accounted for. -/
theorem inv_reaches (h : Reaches Kernel.step (img.boot v) k) : ∃ H, Inv v H [] [] k := by
  refine Reaches.invariant (I := fun k => ∃ H, Inv v H [] [] k) h (fun s e t hs ht => ?_) ⟨[], inv_boot img v⟩
  obtain ⟨H, hs⟩ := hs
  exact step_exists_inv hs ht

/-- Every reference to an entry of the cache is that of an open file or of a current directory, and no
inode has two entries. -/
def Kernel.Balanced (k : Kernel) : Prop :=
  (∀ i < ninode, (k.inode i).ref = k.uses i) ∧
    ∀ i < ninode, ∀ j < ninode, 0 < (k.inode i).ref → 0 < (k.inode j).ref →
      (k.inode i).dev = (k.inode j).dev → (k.inode i).inum = (k.inode j).inum → i = j

theorem Inv.balanced (h : Inv v [] [] [] k) : k.Balanced := by
  refine ⟨fun i hi => ?_, fun i hi j hj hposi hposj _ => h.unique i hi j hj hposi hposj⟩
  rw [h.refs i hi, List.count_nil]
  exact Int.add_zero _

theorem Inv.not_balanced {i : Nat} (h : Inv v (i :: H) [] [] k) : ¬k.Balanced := by
  intro hb
  have hrefs := h.refs i (h.held i List.mem_cons_self)
  rw [hb.1 i (h.held i List.mem_cons_self), List.count_cons_self] at hrefs
  omega

/-- The states of a run are balanced as long as no call of `exec` passes the permission check. -/
theorem balanced_iff (img : Image) (es : List Event) :
    Always Kernel.step (fun _ _ t => t.Balanced) (img.boot .a1) es ↔
      Always Kernel.step (fun k e _ => ¬e.passes .a1 k) (img.boot .a1) es := by
  have h := inv_boot img .a1
  revert h
  generalize img.boot .a1 = k
  intro h
  induction es generalizing k with
  | nil => exact Iff.rfl
  | cons e es ih =>
    refine forall_congr' fun t => imp_congr_right fun ht => ?_
    obtain ⟨ht, hno⟩ | ⟨⟨i, ht⟩, hpass⟩ := step_inv h ht
    · exact and_congr (iff_of_true ht.balanced hno) (ih t ht)
    · exact iff_of_false (fun hc => ht.not_balanced hc.1) fun hc => hc.1 hpass

/-- A program in the root directory. -/
def Image.shell : Image := ⟨[([115, 104], [])], 900, by decide⟩

/-- The first process runs the program, and a reference to its inode is left over. -/
theorem exec_unbalanced : ∃ k,
    (Image.shell.boot .a1).step (.call (.exec (some [slash, 115, 104]) true true)) = some k ∧ ¬k.Balanced := by
  have h : ((Image.shell.boot .a1).step (.call (.exec (some [slash, 115, 104]) true true))).map
      (fun k => ((k.inode 1).ref, k.uses 1)) = some (1, 0) := by
    decide
  obtain ⟨k, hk, hr⟩ := Option.map_eq_some_iff.mp h
  refine ⟨k, hk, fun hb => ?_⟩
  have := hb.1 1 (by decide)
  rw [(Prod.mk.inj hr).1, (Prod.mk.inj hr).2] at this
  exact absurd this (by decide)

end Xv6.Files
