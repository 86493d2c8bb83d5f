import AdvancedXv6.Files.CallSpec
import AdvancedXv6.Files.Step
import Mathlib.Data.List.Perm.Basic

/-! Processes that come and go. -/

namespace Xv6.Files
open Function Effect List

variable {v : Version} {H G L : List Nat} {k t : Kernel} {i f g : Nat}

/-- The child of `p`. -/
def Proc.child (p : Proc) : Proc := ⟨p.cwd, fun fd => if fd < nofile then p.ofile fd else none⟩

theorem Proc.descriptors_child (p : Proc) (f : Nat) : p.child.descriptors f = p.descriptors f := by
  refine List.countP_congr fun fd hfd => ?_
  have : p.child.ofile fd = p.ofile fd := if_pos (List.mem_range.mp hfd)
  rw [this]

/-- A child takes over a reference to the current directory and the files of its parent. -/
theorem Inv.spawn {G' : List Nat} (h : Inv v (k.proc.cwd :: H) (G' ++ G) L k)
    (hG : ∀ f, G'.count f = k.proc.descriptors f) :
    Inv v H G L { k with others := k.proc.child :: k.others } := by
  have hcwd := h.cwd
  have hofile := h.ofile
  refine h.setProcs (fun p hp => ?_) (fun p hp => ?_) h.erase_held (fun i => ?_) fun f => ?_
  · rcases List.mem_cons.mp hp with rfl | hp
    · exact h.cwd _ List.mem_cons_self
    rcases List.mem_cons.mp hp with rfl | hp
    · exact h.cwd k.proc List.mem_cons_self
    · exact h.cwd p (List.mem_cons_of_mem _ hp)
  · rcases List.mem_cons.mp hp with rfl | hp
    · exact h.ofile _ List.mem_cons_self
    rcases List.mem_cons.mp hp with rfl | hp
    · intro fd f hfd
      rw [Proc.child] at hfd
      dsimp only at hfd
      split at hfd
      · exact h.ofile _ List.mem_cons_self fd f hfd
      · exact absurd hfd (by simp)
    · exact h.ofile p (List.mem_cons_of_mem _ hp)
  · have : k.proc.child.cwd = k.proc.cwd := rfl
    simp only [Kernel.procs, List.countP_cons, List.count_cons, this, beq_iff_eq, decide_eq_true_eq]
    omega
  · have := hG f
    simp only [Kernel.descriptors, Kernel.procs, List.map_cons, List.sum_cons, Proc.descriptors_child,
      List.count_append]
    omega

theorem Kernel.dropped_setFd (k : Kernel) (c fd : Nat) (o : Option Nat) :
    (k.dropped c).setFd fd o = (k.setFd fd o).dropped c := by
  rw [Kernel.setFd, Kernel.dropped_proc]
  exact k.dropped_setProc c _

theorem Kernel.closed_setFd (k : Kernel) (f fd : Nat) (o : Option Nat) :
    (k.closed f).setFd fd o = (k.setFd fd o).closed f := by
  have hfile : (k.setFd fd o).file = k.file := rfl
  rw [Kernel.closed, Kernel.closed, hfile]
  split
  · split
    · exact Kernel.dropped_setFd ..
    · rfl
  · rfl

theorem Kernel.closed_proc (k : Kernel) (f : Nat) : (k.closed f).proc = k.proc := by
  rw [Kernel.closed]
  split
  · split
    · exact Kernel.dropped_proc ..
    · rfl
  · rfl

section Steady
variable {J : List Nat → List Nat → List Nat → Kernel → Prop} (hJ : Steady v J)
include hJ

theorem fork_spec (h : J H G L k) : Ends fork k fun _ t => J H G L t := by
  unfold fork
  rw [ends_get_bind]
  refine Ends.bind (wp_forEach (I := fun xs t => ∃ G', J H (G' ++ G) L t ∧ t.proc = k.proc ∧
      ∀ f, G'.count f + xs.countP (fun fd => decide (k.proc.ofile fd = some f)) = k.proc.descriptors f)
    (fun fd xs t ht => ?_) (List.range nofile) ⟨[], h, rfl, fun f => Nat.zero_add _⟩) fun _ t ht => ?_
  · obtain ⟨G', ht, hproc, hG⟩ := ht
    rw [← hproc] at hG ⊢
    cases hfd : t.proc.ofile fd with
    | none =>
      refine Ends.pure ⟨G', ht, rfl, fun f => ?_⟩
      have := hG f
      rw [List.countP_cons_of_neg (by simp [hfd])] at this
      exact this
    | some f =>
      obtain ⟨hf, hpos⟩ := (hJ.inv ht).ofile_pos List.mem_cons_self hfd
      refine (filedup_state t f).mono fun _ u hu => ?_
      refine ⟨f :: G', hu ▸ hJ.table ht t.seats ((hJ.inv ht).dupFile hf hpos), hu ▸ rfl, fun f' => ?_⟩
      have := hG f'
      simp only [List.countP_cons, hfd, Option.some.injEq, decide_eq_true_eq] at this
      simp only [List.count_cons, beq_iff_eq]
      omega
  · obtain ⟨G', ht, hproc, hG⟩ := ht
    rw [← hproc] at hG ⊢
    obtain ⟨hlt, hpos⟩ := (hJ.inv ht).cwd_pos List.mem_cons_self
    refine (idup_spec hJ ht hlt hpos).bind fun c u hu => .modify ?_
    obtain ⟨rfl, hu, rfl⟩ := hu
    refine hJ.table hu (fun p hp => ?_) ((hJ.inv hu).spawn hG)
    rcases List.mem_cons.mp hp with rfl | hp
    · exact .inl ⟨_, List.mem_cons_self, rfl⟩
    rcases List.mem_cons.mp hp with rfl | hp
    · exact .inl ⟨_, List.mem_cons_self, rfl⟩
    · exact .inl ⟨p, List.mem_cons_of_mem _ hp, rfl⟩

/-- What `exit` leaves is what the release of the current directory leaves, of a state where the process
has no files. -/
theorem exit_spec (h : J H G L k) : Ends exit k fun _ t => ∃ u, J H G L u ∧ (∀ fd, u.proc.ofile fd = none) ∧
    Same (u.dropped u.proc.cwd) t ∧ (u.inode u.proc.cwd).locked = false := by
  unfold exit
  refine Ends.bind (wp_forEach (I := fun xs t => J H G L t ∧ ∀ fd, t.proc.ofile fd ≠ none → fd ∈ xs)
    (fun fd xs t ht => ?_) (List.range nofile) ⟨h, fun fd hfd => ?_⟩) fun _ t ht => ?_
  · obtain ⟨ht, hfiles⟩ := ht
    refine ends_get_bind.mpr ?_
    cases hfd : t.proc.ofile fd with
    | none =>
      refine Ends.pure ⟨ht, fun fd' hfd' => ?_⟩
      rcases List.mem_cons.mp (hfiles fd' hfd') with rfl | hmem
      · exact absurd hfd hfd'
      · exact hmem
    | some f =>
      obtain ⟨hlt, hf⟩ := (hJ.inv ht).ofile t.proc List.mem_cons_self fd f hfd
      refine (fileclose_state t f).bind fun _ u hu => .modify ⟨?_, fun fd' hfd' => ?_⟩
      · rw [hu.1, Kernel.closed_setFd]
        exact close hJ (setFd_none hJ ht hlt hfd) hf hu.2
      · rw [hu.1, Kernel.closed_setFd, Kernel.closed_proc] at hfd'
        by_cases hne : fd' = fd
        · subst hne
          exact absurd (update_self ..) hfd'
        · rw [Kernel.setFd] at hfd'
          dsimp only at hfd'
          rw [update_of_ne hne] at hfd'
          exact (List.mem_cons.mp (hfiles fd' hfd')).resolve_left hne
  · obtain ⟨f, hf⟩ := Option.ne_none_iff_exists'.mp hfd
    exact List.mem_range.mpr ((hJ.inv h).ofile k.proc List.mem_cons_self fd f hf).1
  · obtain ⟨ht, hfiles⟩ := ht
    have hfiles : ∀ fd, t.proc.ofile fd = none := fun fd => by
      by_contra hfd
      exact absurd (hfiles fd hfd) List.not_mem_nil
    refine (beginOp_spec t).bind fun _ u hu => ?_
    rw [ends_get_bind]
    refine (iput_state u u.proc.cwd).bind fun _ w hw => ?_
    obtain ⟨rfl, hfree⟩ := hw
    refine (endOp_spec _).mono fun _ x hx => ⟨u, hJ.same ht hu, ?_, hx, hfree⟩
    rw [hu.proc]
    exact hfiles

/-- The process that leaves takes its current directory along. -/
theorem leave_spec (h : J H G L k) (hfiles : ∀ fd, k.proc.ofile fd = none)
    (hfree : (k.inode k.proc.cwd).locked = false) (hs : Same (k.dropped k.proc.cwd) t) {next : Nat} {u : Kernel}
    (hu : t.leave next = some u) : J H G L u := by
  obtain ⟨p, hp, rfl⟩ := Option.map_eq_some_iff.mp hu
  rw [hs.others, Kernel.dropped_others] at hp ⊢
  obtain ⟨hlt, rfl⟩ := List.getElem?_eq_some_iff.mp hp
  have hperm : (k.others[next] :: k.others.eraseIdx next).Perm k.others := List.getElem_cons_eraseIdx_perm hlt
  have hi := hJ.inv h
  have hcwd := hi.cwd k.proc List.mem_cons_self
  have hdesc : ∀ f, k.proc.descriptors f = 0 := fun f =>
    List.countP_eq_zero.mpr fun fd _ => by simp [hfiles fd]
  have hw : Inv v (k.proc.cwd :: H) G L { k with proc := k.others[next], others := k.others.eraseIdx next } :=
    hi.setProcs (fun q hq => hi.cwd q (List.mem_cons_of_mem _ (hperm.subset hq)))
    (fun q hq => hi.ofile q (List.mem_cons_of_mem _ (hperm.subset hq)))
    (List.forall_mem_cons.mpr ⟨hcwd, hi.held⟩)
    (fun i => by
      rw [hperm.countP_eq, Kernel.procs, List.countP_cons, List.count_cons]
      simp only [beq_iff_eq, decide_eq_true_eq]
      omega)
    fun f => by
      rw [(hperm.map _).sum_eq, Kernel.descriptors, Kernel.procs, List.map_cons, List.sum_cons, hdesc f,
        Nat.zero_add]
  have hl : k.proc.cwd ∉ L := fun hl =>
    absurd ((hi.locked _ hcwd).mpr hl) (Bool.eq_false_iff.mp hfree)
  have hd := hJ.drop (hJ.table h (Kernel.seats_of_subset fun q hq => List.mem_cons_of_mem _ (hperm.subset hq)) hw) hl
  rw [← Kernel.dropped_procs] at hd
  exact hJ.same hd ⟨hs.inode, hs.file, hs.dinode, hs.entries, rfl, rfl, hs.notes, hs.version⟩

theorem switch_spec (h : J H G L k) {next : Nat} (hu : k.switch next = some t) : J H G L t := by
  obtain ⟨p, hp, rfl⟩ := Option.map_eq_some_iff.mp hu
  obtain ⟨hlt, rfl⟩ := List.getElem?_eq_some_iff.mp hp
  have hperm : (k.others[next] :: k.others.set next k.proc).Perm k.procs :=
    calc k.others[next] :: k.others.set next k.proc
      _ ~ k.others[next] :: k.proc :: k.others.eraseIdx next :=
        (List.set_perm_cons_eraseIdx hlt k.proc).cons _
      _ ~ k.proc :: k.others[next] :: k.others.eraseIdx next := .swap ..
      _ ~ k.procs := (List.getElem_cons_eraseIdx_perm hlt).cons _
  have hi := hJ.inv h
  refine hJ.table h (Kernel.seats_of_subset hperm.subset) (hi.setProcs (fun q hq => hi.cwd q (hperm.subset hq))
    (fun q hq => hi.ofile q (hperm.subset hq)) hi.held (fun i => ?_) fun f => ?_)
  · rw [hperm.countP_eq]
  · rw [(hperm.map _).sum_eq, Kernel.descriptors]

end Steady

end Xv6.Files
