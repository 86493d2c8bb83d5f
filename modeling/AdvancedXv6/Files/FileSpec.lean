import AdvancedXv6.Files.Syscall
import AdvancedXv6.Files.InodeSpec
import AdvancedXv6.Lib.Counting
import Mathlib.Algebra.Order.BigOperators.Group.List
import Mathlib.Algebra.Order.Group.Nat

/-! The file table: opening and closing files moves references between the kernel, the files and
the descriptors. -/

namespace Xv6.Files
open Function Effect Counting

variable {v : Version} {H H' G G' L : List Nat} {k t : Kernel} {i f fd : Nat} {g : File}

/-! ### Counting -/

/-- The file is a reference to the inode. -/
def File.at (g : File) (i : Nat) : Bool := decide ((0 < g.ref ∧ g.type = .inode) ∧ g.ip = some i)

theorem Kernel.uses_setFile (k : Kernel) (hf : f < nfile) (g : File) (i : Nat) :
    { k with file := update k.file f g }.uses i + ((k.file f).at i).toNat = k.uses i + (g.at i).toNat := by
  have := countP_range_change (p := fun f => (k.file f).at i) (q := fun f' => (update k.file f g f').at i)
    (fun m _ hm => by rw [update_of_ne hm]) hf
  rw [update_self] at this
  have hu : ∀ k : Kernel, k.uses i =
      (List.range nfile).countP (fun f => (k.file f).at i) + k.procs.countP fun p => decide (p.cwd = i) :=
    fun _ => rfl
  rw [hu, hu]
  have hp : { k with file := update k.file f g }.procs = k.procs := rfl
  rw [hp]
  dsimp only
  omega

namespace Inv

/-- A change of one file. -/
theorem setFile (h : Inv v H G L k) (hf : f < nfile) (href : g.ref = k.descriptors f + G'.count f)
    (hG : ∀ f' ≠ f, G'.count f' = G.count f') (hclosed : g.type = .inode → 0 < g.ref)
    (hopen : g.type = .inode → ∃ i < ninode, g.ip = some i ∧ (k.inode i).valid = true)
    (hip : ∀ i, g.ip = some i → i < ninode) (hheld : ∀ i ∈ H', i < ninode)
    (huses : ∀ i, (g.at i).toNat + H'.count i = ((k.file f).at i).toNat + H.count i) :
    Inv v H' G' L { k with file := update k.file f g } := by
  refine ⟨h.version, h.cwd, h.ofile, hheld, fun f' hf' hlive => ?_, fun f' hf' htype => ?_,
    fun f' hf' j hj => ?_, fun i hi => ?_, fun f' hf' => ?_, h.unique, h.dev, h.locked, h.lock, h.cached, h.perm⟩
  · rw [Kernel.Live] at hlive
    dsimp only at hlive ⊢
    by_cases hff : f' = f
    · subst hff
      rw [update_self] at hlive ⊢
      exact hopen hlive.2
    · rw [update_of_ne hff] at hlive ⊢
      exact h.opened f' hf' hlive
  · dsimp only at htype ⊢
    by_cases hff : f' = f
    · subst hff
      rw [update_self] at htype ⊢
      exact hclosed htype
    · rw [update_of_ne hff] at htype ⊢
      exact h.closed f' hf' htype
  · dsimp only at hj
    by_cases hff : f' = f
    · subst hff
      rw [update_self] at hj
      exact hip j hj
    · rw [update_of_ne hff] at hj
      exact h.ips f' hf' j hj
  · have hrefs := h.refs i hi
    have hchange := k.uses_setFile hf g i
    have hcount := huses i
    dsimp only at hrefs ⊢
    omega
  · dsimp only
    by_cases hff : f' = f
    · subst hff
      rw [update_self]
      exact href
    · rw [update_of_ne hff, hG f' hff]
      exact h.files f' hf'

/-- A change of the processes. -/
theorem setProcs (h : Inv v H G L k) {proc : Proc} {others : List Proc}
    (hcwd : ∀ p ∈ proc :: others, p.cwd < ninode)
    (hofile : ∀ p ∈ proc :: others, ∀ fd f, p.ofile fd = some f → fd < nofile ∧ f < nfile)
    (hheld : ∀ i ∈ H', i < ninode)
    (hH : ∀ i, (proc :: others).countP (fun p => decide (p.cwd = i)) + H'.count i =
      k.procs.countP (fun p => decide (p.cwd = i)) + H.count i)
    (hG : ∀ f, ((proc :: others).map fun p => p.descriptors f).sum + G'.count f =
      k.descriptors f + G.count f) :
    Inv v H' G' L { k with proc, others } := by
  refine ⟨h.version, hcwd, hofile, hheld, h.opened, h.closed, h.ips, fun i hi => ?_, fun f hf => ?_, h.unique, h.dev,
    h.locked, h.lock, h.cached, h.perm⟩
  · have hrefs := h.refs i hi
    have hcount := hH i
    rw [Kernel.uses] at hrefs ⊢
    have hfiles : (List.range nfile).countP (fun f => decide ({ k with proc, others }.Live f ∧
        ({ k with proc, others }.file f).ip = some i)) =
        (List.range nfile).countP fun f => decide (k.Live f ∧ (k.file f).ip = some i) := rfl
    have hprocs : { k with proc, others }.procs = proc :: others := rfl
    rw [hfiles, hprocs]
    dsimp only
    omega
  · have := h.files f hf
    have := hG f
    simp only [Kernel.descriptors, Kernel.procs] at *
    omega

/-- A change of a file in use that is none to what it is for. -/
theorem setFile_same (h : Inv v H G L k) (hf : f < nfile) (href : g.ref = (k.file f).ref)
    (htype : g.type = (k.file f).type) (hip : g.ip = (k.file f).ip) :
    Inv v H G L { k with file := update k.file f g } := by
  refine h.setFile hf (href.trans (h.files f hf)) (fun _ _ => rfl) (fun ht => ?_) (fun ht => ?_)
    (hip ▸ h.ips f hf) h.held fun i => ?_
  · rw [href]
    exact h.closed f hf (htype.symm.trans ht)
  · rw [hip]
    have ht := htype.symm.trans ht
    exact h.opened f hf ⟨h.closed f hf ht, ht⟩
  · rw [File.at, File.at, href, htype, hip]

theorem descriptors_setFd (p : Proc) (hfd : fd < nofile) (o : Option Nat) (f : Nat) :
    Proc.descriptors { p with ofile := update p.ofile fd o } f + (decide (p.ofile fd = some f)).toNat =
      p.descriptors f + (decide (o = some f)).toNat := by
  have := countP_range_change (p := fun fd => decide (p.ofile fd = some f))
    (q := fun fd' => decide (update p.ofile fd o fd' = some f)) (fun m _ hm => by rw [update_of_ne hm]) hfd
  rw [update_self] at this
  exact this

/-- A change of one descriptor of the running process. -/
theorem setFd (h : Inv v H G L k) (hfd : fd < nofile) {o : Option Nat} (ho : ∀ f, o = some f → f < nfile)
    (hG : ∀ f, (decide (o = some f)).toNat + G'.count f =
      (decide (k.proc.ofile fd = some f)).toNat + G.count f) : Inv v H G' L (k.setFd fd o) := by
  refine h.setProcs (fun p hp => ?_) (fun p hp => ?_) h.held (fun i => ?_) fun f => ?_
  · rcases List.mem_cons.mp hp with rfl | hp
    · exact h.cwd k.proc List.mem_cons_self
    · exact h.cwd p (List.mem_cons_of_mem _ hp)
  · rcases List.mem_cons.mp hp with rfl | hp
    · intro fd' f' hf
      dsimp only at hf
      by_cases hne : fd' = fd
      · subst hne
        rw [update_self] at hf
        exact ⟨hfd, ho f' hf⟩
      · rw [update_of_ne hne] at hf
        exact h.ofile k.proc List.mem_cons_self fd' f' hf
    · exact h.ofile p (List.mem_cons_of_mem _ hp)
  · rfl
  · have := descriptors_setFd k.proc hfd o f
    have := hG f
    simp only [List.map_cons, List.sum_cons, Kernel.descriptors, Kernel.procs]
    omega

theorem dupFile (h : Inv v H G L k) (hf : f < nfile) (hpos : 0 < (k.file f).ref) :
    Inv v H (f :: G) L (k.setFile f fun g => { g with ref := g.ref + 1 }) := by
  refine h.setFile hf ?_ (fun f' hne => ?_) (fun _ => ?_) (fun ht => h.opened f hf ⟨hpos, ht⟩)
    (h.ips f hf) h.held fun i => ?_
  · have := h.files f hf
    rw [List.count_cons_self]
    dsimp only
    omega
  · exact List.count_cons_of_ne hne.symm
  · exact Int.lt_add_one_of_le (Int.le_of_lt hpos)
  · have : 0 < (k.file f).ref + 1 := Int.lt_add_one_of_le (Int.le_of_lt hpos)
    simp only [File.at, hpos, this]

theorem file_pos (h : Inv v H (f :: G) L k) (hf : f < nfile) : 0 < (k.file f).ref := by
  have := h.files f hf
  rw [List.count_cons_self] at this
  omega

theorem ofile_pos (h : Inv v H G L k) {p : Proc} (hp : p ∈ k.procs) (hfd : p.ofile fd = some f) :
    f < nfile ∧ 0 < (k.file f).ref := by
  obtain ⟨hlt, hf⟩ := h.ofile p hp fd f hfd
  refine ⟨hf, ?_⟩
  have hfiles := h.files f hf
  have hmem : p.descriptors f ∈ k.procs.map fun p => p.descriptors f := List.mem_map_of_mem hp
  have hle : p.descriptors f ≤ k.descriptors f := List.le_sum_of_mem hmem
  have hpos : 0 < p.descriptors f :=
    List.countP_pos_iff.mpr ⟨fd, List.mem_range.mpr hlt, decide_eq_true hfd⟩
  omega

end Inv

/-! ### Files -/

/-- The file is closed once, less the reference to its inode. -/
def Kernel.shut (k : Kernel) (f : Nat) : Kernel :=
  k.setFile f fun g => { g with ref := g.ref - 1, type := if g.ref - 1 = 0 then .none else g.type }

/-- The state that `fileclose` leaves. -/
def Kernel.closed (k : Kernel) (f : Nat) : Kernel :=
  if (k.file f).ref - 1 = 0 ∧ (k.file f).type = .inode then
    match (k.file f).ip with
    | some ip => (k.shut f).dropped ip
    | none => k.shut f
  else k.shut f

theorem Kernel.setFile_setFile (k : Kernel) (f : Nat) (g g' : File → File) :
    (k.setFile f g).setFile f g' = k.setFile f (g' ∘ g) := by
  simp only [Kernel.setFile, update_self, update_idem, comp_apply]

theorem Kernel.shut_last (h : (k.file f).ref - 1 = 0) :
    (k.setFile f fun g => { g with ref := g.ref - 1 }).setFile f (fun g => { g with type := .none }) =
      k.shut f := by
  rw [Kernel.setFile_setFile, Kernel.shut, Kernel.setFile, Kernel.setFile]
  simp only [comp_apply, if_pos h]

theorem Kernel.shut_more (h : (k.file f).ref - 1 ≠ 0) :
    (k.setFile f fun g => { g with ref := g.ref - 1 }) = k.shut f := by
  rw [Kernel.shut, Kernel.setFile, Kernel.setFile]
  simp only [if_neg h]

/-- The transaction around `iput` leaves no trace. -/
theorem Kernel.dropped_op (k : Kernel) (i : Nat) :
    { { k with outstanding := k.outstanding + 1 }.dropped i with
      outstanding := ({ k with outstanding := k.outstanding + 1 }.dropped i).outstanding - 1 } = k.dropped i := by
  have hun : { k with outstanding := k.outstanding + 1 }.Unused i ↔ k.Unused i := Iff.rfl
  by_cases h : k.Unused i
  · simp only [Kernel.dropped, Kernel.released, if_pos h, if_pos (hun.mpr h), Kernel.setInode]
    rfl
  · simp only [Kernel.dropped, Kernel.released, if_neg h, if_neg (hun.not.mpr h), Kernel.setInode]
    rfl

theorem fileIp_spec (k : Kernel) (f : Nat) :
    Ends (fileIp f) k fun ip t => t = k ∧ (k.file f).ip = some ip := by
  rw [fileIp, ends_get_bind]
  split
  · exact .throw _
  · rename_i ip hip
    exact .pure ⟨rfl, hip⟩

theorem fileclose_state (k : Kernel) (f : Nat) : Ends (fileclose f) k fun _ t => t = k.closed f ∧
    ((k.file f).ref - 1 = 0 → (k.file f).type = .inode → ∃ ip, (k.file f).ip = some ip ∧
      (k.inode ip).locked = false) := by
  unfold fileclose
  rw [ends_get_bind]
  refine .ite (fun _ => .throw _) fun _ => ?_
  dsimp only
  rw [ends_modify_bind]
  refine .ite (fun hlast => ?_) fun hmore => ?_
  · rw [ends_modify_bind, Kernel.shut_last hlast]
    refine .ite (fun htype => ?_) fun htype => ?_
    · have hip : ((k.shut f).file f).ip = (k.file f).ip := by rw [Kernel.shut, Kernel.setFile_self]
      refine (fileIp_spec (k.shut f) f).bind fun ip t ht => ?_
      obtain ⟨rfl, hip'⟩ := ht
      rw [hip] at hip'
      rw [beginOp, ends_modify_bind]
      refine (iput_state _ ip).bind fun _ t ht => ?_
      obtain ⟨rfl, hfree⟩ := ht
      refine .modify ⟨?_, fun _ _ => ⟨ip, hip', hfree⟩⟩
      rw [Kernel.closed, if_pos ⟨hlast, htype⟩, hip']
      exact Kernel.dropped_op (k.shut f) ip
    · refine .pure ⟨?_, fun _ ht => absurd ht htype⟩
      rw [Kernel.closed, if_neg fun h => htype h.2]
  · refine .pure ⟨?_, fun h => absurd h hmore⟩
    rw [Kernel.shut_more hmore, Kernel.closed, if_neg fun h => hmore h.1]

theorem Inv.shut (h : Inv v H (f :: G) L k) (hf : f < nfile)
    (hmore : (k.file f).ref - 1 = 0 → (k.file f).type ≠ .inode) : Inv v H G L (k.shut f) := by
  have hcount := h.files f hf
  rw [List.count_cons_self] at hcount
  have hpos := h.file_pos hf
  refine h.setFile hf ?_ (fun f' hne => (List.count_cons_of_ne hne.symm).symm) (fun ht => ?_)
    (fun ht => ?_) (h.ips f hf) h.held fun i => ?_
  · dsimp only
    omega
  · dsimp only at ht ⊢
    split at ht
    · exact absurd ht (by decide)
    · omega
  · dsimp only at ht ⊢
    split at ht
    · exact absurd ht (by decide)
    · exact h.opened f hf ⟨hpos, ht⟩
  · dsimp only [File.at]
    split
    · rename_i hlast
      simp [hmore hlast]
    · have : 0 < (k.file f).ref - 1 := by omega
      simp only [hpos, this]

theorem Inv.shut_inode (h : Inv v H (f :: G) L k) (hf : f < nfile) (hlast : (k.file f).ref - 1 = 0)
    (htype : (k.file f).type = .inode) (hip : (k.file f).ip = some i) :
    Inv v (i :: H) G L (k.shut f) := by
  have hcount := h.files f hf
  rw [List.count_cons_self] at hcount
  have hpos := h.file_pos hf
  have hi := h.ips f hf i hip
  refine h.setFile hf ?_ (fun f' hne => (List.count_cons_of_ne hne.symm).symm) (fun ht => ?_)
    (fun ht => ?_) (h.ips f hf) (List.forall_mem_cons.mpr ⟨hi, h.held⟩) fun j => ?_
  · dsimp only
    omega
  · dsimp only at ht
    rw [if_pos hlast] at ht
    exact absurd ht (by decide)
  · dsimp only at ht
    rw [if_pos hlast] at ht
    exact absurd ht (by decide)
  · simp only [File.at, if_pos hlast, htype, hip, hpos, List.count_cons, Option.some.injEq]
    simp only [reduceCtorEq, and_false, false_and, and_true, true_and, decide_false, Bool.toNat_false, beq_iff_eq]
    by_cases hij : i = j
    · simp [hij, Nat.add_comm]
    · simp [hij]

theorem filedup_state (k : Kernel) (f : Nat) : Ends (filedup f) k fun _ t =>
    t = k.setFile f fun g => { g with ref := g.ref + 1 } := by
  simp only [filedup, Ends, wp_bind, wp_get, wp_ite, wp_modify, wp_throw]
  exact ⟨fun _ => trivial, fun _ => trivial⟩

section Steady
variable {J : List Nat → List Nat → List Nat → Kernel → Prop} (hJ : Steady v J)
include hJ

theorem close (h : J H (f :: G) L k) (hf : f < nfile)
    (hlast : (k.file f).ref - 1 = 0 → (k.file f).type = .inode → ∃ ip, (k.file f).ip = some ip ∧
      (k.inode ip).locked = false) : J H G L (k.closed f) := by
  rw [Kernel.closed]
  split
  · rename_i hc
    obtain ⟨ip, hip, hfree⟩ := hlast hc.1 hc.2
    have hs := (hJ.inv h).shut_inode hf hc.1 hc.2 hip
    rw [hip]
    refine hJ.drop (hJ.table h k.seats hs) fun hl => ?_
    have := ((hJ.inv h).locked ip (hs.held ip List.mem_cons_self)).mpr hl
    exact absurd this (Bool.eq_false_iff.mp hfree)
  · rename_i hc
    exact hJ.table h k.seats ((hJ.inv h).shut hf fun hlast ht => hc ⟨hlast, ht⟩)

theorem fileclose_spec (h : J H (f :: G) L k) (hf : f < nfile) :
    Ends (fileclose f) k fun _ t => J H G L t := by
  refine (fileclose_state k f).mono fun _ t ht => ?_
  obtain ⟨rfl, hlast⟩ := ht
  exact close hJ h hf hlast

theorem filealloc_spec (h : J H G L k) : Ends filealloc k fun r t => match r with
    | none => t = k
    | some f => f < nfile ∧ (k.file f).type ≠ .inode ∧ t = k.setFile f (fun g => { g with ref := 1 }) ∧
      J H (f :: G) L t := by
  have hi := hJ.inv h
  rw [filealloc, ends_get_bind]
  split
  · exact .pure rfl
  · rename_i f hfind
    obtain ⟨hf, hp⟩ := find_lt hfind
    have hzero := of_decide_eq_true hp
    have htype : (k.file f).type ≠ .inode := fun ht => by
      have := hi.closed f hf ht
      omega
    rw [ends_modify_bind]
    refine .pure ⟨hf, htype, rfl, hJ.table h k.seats (hi.setFile hf ?_ (fun f' hne => ?_) (fun ht => absurd ht htype)
      (fun ht => absurd ht htype) (hi.ips f hf) hi.held fun i => ?_)⟩
    · have := hi.files f hf
      rw [List.count_cons_self]
      dsimp only
      omega
    · exact List.count_cons_of_ne hne.symm
    · simp only [File.at, htype, and_false, false_and, decide_false]

end Steady

end Xv6.Files
