import AdvancedXv6.Files.NameSpec
import AdvancedXv6.Files.Balance

/-! The link counts over runs: they are exact until a name is made in a directory that has been
removed. -/

namespace Xv6.Files
open Function Effect Run Finset

variable {k t : Kernel} {e : Event} {es : List Event} {img : Image} {n : Nat}

/-- The count of an inode is the number of its names, and an inode is free just if it has neither names nor
references. -/
def Kernel.Exact (k : Kernel) : Prop :=
  (∀ n, k.disk.type n ≠ .free → 0 < k.disk.nlink n → k.disk.nlink n = k.disk.names n) ∧
    ∀ n, 0 < n → n < ninodes →
      (k.disk.type n = .free ↔ k.disk.names n = 0 ∧ ∀ i < ninode, 0 < k.uses i → (k.inode i).inum ≠ n)

/-- A name is made in a directory without links, or a link added where the count has overflowed to the last
number before zero. -/
def Call.strays (k : Kernel) (c : Call) : Prop :=
  (∃ path type, c.creates = some (path, type) ∧ k.Orphans path) ∨
    ∃ old new n, c = .link (some old) (some new) ∧ k.finds old = some n ∧ k.disk.type n ≠ .dir ∧
      (k.Orphans new ∨ k.disk.nlink n = -1)

def Event.strays (k : Kernel) (e : Event) : Prop := ∃ c, e = .call c ∧ c.strays k

/-- References to inodes on the disk are to inodes that are not free. -/
theorem Cached.used (h : Cached none [] [] [] k) {i : Nat} (hi : i < ninode) (huse : 0 < k.uses i) :
    k.disk.type (k.inode i).inum ≠ .free := by
  rw [Kernel.uses] at huse
  rcases Nat.add_pos_iff_pos_or_pos.mp huse with hfile | hcwd
  · obtain ⟨f, hf, hp⟩ := List.countP_pos_iff.mp hfile
    obtain ⟨hlive, hip⟩ := of_decide_eq_true hp
    have hvalid := h.inv.valid_of_file (List.mem_range.mp hf) hlive hip
    have hpos : 0 < (k.inode i).ref := by
      have hrefs := h.inv.refs i hi
      rw [Kernel.uses, List.count_nil] at hrefs
      omega
    obtain ⟨htype, -, hfree⟩ := h.inv.cached i hi hpos hvalid
    exact fun hf => hfree (htype.trans hf)
  · obtain ⟨p, hp, hcwd⟩ := List.countP_pos_iff.mp hcwd
    rw [← of_decide_eq_true hcwd]
    exact h.cwd p hp

theorem Linked.exact (h : Linked none [] [] [] k) : k.Exact := by
  have htree := h.tree
  rw [Disk.minus_none] at htree
  refine ⟨fun n hn hpos => ?_, fun n hn hlt => ⟨fun hfree => ⟨htree.gone n hn hfree, fun i hi huse hin => ?_⟩, ?_⟩⟩
  · obtain ⟨hlt, hcount⟩ := htree.count n hn
    unfold toShort at hcount
    omega
  · exact h.toCached.used hi huse (hin ▸ hfree)
  · rintro ⟨hnames, hrefs⟩
    by_contra hfree
    have hzero := (htree.count n hfree).2
    rw [hnames] at hzero
    obtain ⟨i, hi, hpos, hin⟩ := h.kept n hfree hzero (by simp)
    refine hrefs i hi ?_ hin
    have := h.inv.refs i hi
    rw [List.count_nil] at this
    omega

theorem step_linked (h : Linked none [] [] [] k) (hno : ¬e.strays k) (ht : k.step e = some t) :
    Linked none [] [] [] t := by
  have hv := h.inv.version
  have hstep := step_spec (steady_linked none) h (e := e) (t := t) (fun c path type u major minor he hc hs => ?_)
    (fun old new he => ?_) (fun path _ => sysUnlink_linked h path) (fun file mode he => ?_) ht
  · rcases hstep with ⟨ht, -⟩ | ⟨-, hpass⟩
    · exact ht
    · exact absurd hpass.1 (by decide)
  · refine create_linked ((steady_linked none).same h hs) path (Call.creates_ne hc) major minor fun ho => ?_
    refine hno ⟨c, he, .inl ⟨path, type, hc, ?_⟩⟩
    obtain ⟨m, name, hleads, hrest⟩ := ho
    rw [(hs.calm []).leads] at hleads
    rw [hs.disk] at hrest
    exact ⟨m, name, hleads, hrest⟩
  · refine sysLink_linked h old new fun o n m ho hn hm hdir => ?_
    subst ho hn
    refine ⟨fun ho => hno ⟨_, he, .inr ⟨o, n, m, rfl, hm, hdir, .inl ho⟩⟩, fun hl => ?_⟩
    exact hno ⟨_, he, .inr ⟨o, n, m, rfl, hm, hdir, .inr hl⟩⟩
  · subst he
    rw [Kernel.step, hv] at ht
    exact absurd ht (by simp [Call.known])

/-! ### The image -/

/-- No file is named like the entries that every directory has. -/
def Image.Plain (img : Image) : Prop := ∀ f ∈ img.files, f.1 ≠ dot ∧ f.1 ≠ dotDot

theorem naming_zipIdx (xs : List (Name × List UInt8)) (j n : Nat) :
    Disk.naming ((xs.zipIdx j).map fun f => ⟨f.2 + 2, f.1.1.take dirSiz⟩) n =
      if j + 2 ≤ n ∧ n < j + 2 + xs.length then 1 else 0 := by
  induction xs generalizing j with
  | nil => exact (if_neg fun hc => absurd hc.2 (Nat.not_lt.mpr hc.1)).symm
  | cons x xs ih =>
    have ih := ih (j + 1)
    rw [Disk.naming] at ih ⊢
    rw [List.zipIdx_cons, List.map_cons, List.countP_cons, ih, List.length_cons]
    simp only [decide_eq_true_eq]
    split <;> split <;> split <;> omega

theorem boot_entries (img : Image) : ∃ zeros, (img.boot .a3).disk.entries rootIno = ⟨rootIno, dot⟩ ::
    ⟨rootIno, dotDot⟩ :: ((img.files.zipIdx.map fun f => ⟨f.2 + 2, f.1.1.take dirSiz⟩) ++
      List.replicate zeros ⟨0, []⟩) := ⟨_, rfl⟩

theorem boot_naming (img : Image) (hn : 0 < n) : Disk.naming ((img.boot .a3).disk.rest rootIno) n =
    if 2 ≤ n ∧ n < 2 + img.files.length then 1 else 0 := by
  obtain ⟨zeros, hes⟩ := boot_entries img
  have hzero : Disk.naming (List.replicate zeros ⟨0, []⟩) n = 0 :=
    Disk.naming_zero (fun e he => by rw [List.eq_of_mem_replicate he]) hn
  have hfiles := naming_zipIdx img.files 0 n
  have hrest : (img.boot .a3).disk.rest rootIno = (img.files.zipIdx.map fun f => ⟨f.2 + 2, f.1.1.take dirSiz⟩) ++
      List.replicate zeros ⟨0, []⟩ := by
    rw [Disk.rest, hes]
    rfl
  rw [Disk.naming] at hzero hfiles ⊢
  rw [hrest, List.countP_append, hzero, hfiles, Nat.add_zero, Nat.zero_add]

theorem boot_live (img : Image) (n : Nat) : (img.boot .a3).disk.Live n ↔ n = rootIno := by
  constructor
  · intro hl
    by_contra hne
    have htype := hl.1
    rw [Kernel.disk] at htype
    dsimp only [Image.boot] at htype
    rw [Image.dinode, if_neg hne] at htype
    split at htype <;> exact absurd htype (by decide)
  · rintro rfl
    exact ⟨rfl, (by decide : (0 : Int) < 1)⟩

theorem boot_up (img : Image) : (img.boot .a3).disk.up rootIno = rootIno := by
  obtain ⟨zeros, hes⟩ := boot_entries img
  rw [Disk.up, hes]
  rfl

theorem boot_shape (img : Image) (hplain : img.Plain) :
    ∀ e ∈ (img.boot .a3).disk.rest rootIno, e.name ≠ dot ∧ e.name ≠ dotDot := by
  obtain ⟨zeros, hes⟩ := boot_entries img
  have hcut : ∀ (s t : Name), t.length < dirSiz → s.take dirSiz = t → s = t := by
    intro s t ht hst
    rw [← hst]
    refine (List.take_of_length_le ?_).symm
    by_contra hlong
    rw [← hst, List.length_take, Nat.min_eq_left (Nat.le_of_lt (not_le.mp hlong))] at ht
    exact absurd ht (Nat.lt_irrefl _)
  intro e he
  rw [Disk.rest, hes] at he
  rcases List.mem_append.mp he with he | he
  · obtain ⟨f, hf, rfl⟩ := List.mem_map.mp he
    have hmem : f.1 ∈ img.files := List.fst_mem_of_mem_zipIdx hf
    obtain ⟨hdot, hdotDot⟩ := hplain f.1 hmem
    exact ⟨fun hn => hdot (hcut _ _ (by decide) hn), fun hn => hdotDot (hcut _ _ (by decide) hn)⟩
  · rw [List.eq_of_mem_replicate he]
    exact ⟨by decide, by decide⟩

theorem boot_listed (img : Image) (hn : 0 < n) (p : Nat) : (img.boot .a3).disk.listed n p =
    if p = rootIno ∧ 2 ≤ n ∧ n < 2 + img.files.length then 1 else 0 := by
  rw [Disk.listed]
  by_cases hp : p = rootIno
  · subst hp
    rw [if_pos ((boot_live img _).mpr rfl)]
    refine (boot_naming img hn).trans ?_
    simp only [true_and]
  · rw [if_neg fun hl => hp ((boot_live img p).mp hl), if_neg fun hc => hp hc.1]

theorem boot_lists (img : Image) (hn : 0 < n) : (img.boot .a3).disk.lists n =
    if 2 ≤ n ∧ n < 2 + img.files.length then 1 else 0 := by
  have hroot : rootIno ∈ range ninodes := by decide
  rw [Disk.lists, sum_congr rfl fun p _ => boot_listed img hn p]
  rw [sum_eq_single_of_mem rootIno hroot fun p _ hp => if_neg fun hc => hp hc.1]
  simp only [true_and]

theorem boot_names (img : Image) (hplain : img.Plain) (hn : 0 < n) :
    (img.boot .a3).disk.names n = if n < 2 + img.files.length then 1 else 0 := by
  have hroot : rootIno ∈ range ninodes := by decide
  have hone : ∀ p ≠ rootIno, (img.boot .a3).disk.shown n p = 0 :=
    fun p hp => if_neg fun hl => hp ((boot_live img p).mp hl)
  obtain ⟨zeros, hes⟩ := boot_entries img
  have hname : dotDot ≠ dot := by decide
  have hshape := boot_shape img hplain
  have hnaming := boot_naming img hn
  have hrest : (img.boot .a3).disk.entries rootIno =
      ⟨rootIno, dot⟩ :: ⟨rootIno, dotDot⟩ :: (img.boot .a3).disk.rest rootIno := by
    rw [Disk.rest, hes]
    rfl
  rw [Disk.names, sum_eq_single_of_mem rootIno hroot fun p _ hp => hone p hp, Disk.shown,
    if_pos ((boot_live img _).mpr rfl), hrest, List.countP_cons_of_neg (by simp), List.countP_cons,
    Disk.countP_named fun e he => (hshape e he).1]
  rw [Disk.naming] at hnaming
  rw [hnaming]
  have hone : rootIno = 1 := rfl
  simp only [hone, hname, ne_eq, not_false_eq_true, and_true, decide_eq_true_eq]
  split <;> split <;> split <;> omega

theorem tree_boot (img : Image) (hplain : img.Plain) : (img.boot .a3).disk.Tree := by
  have hfew := img.few
  have htype : ∀ n, (img.boot .a3).disk.type n ≠ .free ↔ 0 < n ∧ n < 2 + img.files.length := by
    intro n
    have : (img.boot .a3).disk.type n = (img.dinode n).type := rfl
    rw [this, Image.dinode]
    split
    · rename_i hn
      have hone : rootIno = 1 := rfl
      refine iff_of_true (by decide) ?_
      omega
    · rename_i hn
      have hone : rootIno = 1 := rfl
      split
      · refine iff_of_true (by decide) ?_
        omega
      · refine iff_of_false (by decide) ?_
        omega
  have hdir : ∀ n, (img.boot .a3).disk.type n = .dir → n = rootIno := by
    intro n hn
    have hn : (img.dinode n).type = .dir := hn
    rw [Image.dinode] at hn
    split at hn
    · assumption
    · split at hn <;> exact absurd hn (by decide)
  have hnlink : ∀ n, (img.boot .a3).disk.type n ≠ .free → (img.boot .a3).disk.nlink n = 1 := by
    intro n hn
    have hn : (img.dinode n).type ≠ .free := hn
    change (img.dinode n).nlink = 1
    rw [Image.dinode] at hn ⊢
    split
    · rfl
    · rename_i hne
      rw [if_neg hne] at hn
      split
      · rfl
      · rename_i hne'
        rw [if_neg hne'] at hn
        exact absurd rfl hn
  refine ⟨fun n hn => ?_, fun n hn => ?_, fun p hp => ?_, fun n hn => ?_, fun n hn hfree => ?_, fun p hp hzero => ?_,
    ⟨(boot_live img _).mpr rfl, boot_up img⟩, ?_, fun c hc hroot => ?_, fun c hc hroot => ?_⟩
  · have hb := (htype n).mp hn
    have : ninodes = 200 := rfl
    omega
  · change (img.data n).entries = []
    have hroot : n ≠ rootIno := by
      rintro rfl
      exact hn rfl
    rw [Image.data, if_neg hroot]
    split
    · split <;> rfl
    · rfl
  · rw [hdir p hp]
    obtain ⟨zeros, hes⟩ := boot_entries img
    refine ⟨rootIno, _, by decide, hes, ?_⟩
    have hshape := boot_shape img hplain
    rw [Disk.rest, hes] at hshape
    exact hshape
  · have hb := (htype n).mp hn
    rw [boot_names img hplain hb.1, if_pos hb.2, hnlink n hn]
    exact ⟨by decide, rfl⟩
  · rw [boot_names img hplain hn, if_neg fun hlt => (htype n).mpr ⟨hn, hlt⟩ hfree]
  · rw [hnlink p (by rw [hp]; decide)] at hzero
    exact absurd hzero (by decide)
  · rw [boot_lists img (by decide), if_neg (by simp [rootIno])]
  · exact absurd ((boot_live img c).mp hc) hroot
  · exact absurd (hdir c hc) hroot

theorem linked_boot (img : Image) (hplain : img.Plain) : Linked none [] [] [] (img.boot .a3) := by
  have htree := tree_boot img hplain
  have hlinks : ∀ n, (img.boot .a3).disk.type n ≠ .free → (img.boot .a3).disk.nlink n ≠ 0 := by
    intro n hn hzero
    have hnames := htree.free_names hn hzero
    have hb := htree.bound n hn
    rw [boot_names img hplain hb.1] at hnames
    split at hnames
    · exact absurd hnames (by decide)
    · rename_i hlt
      have hgone := (tree_boot img hplain).count n hn
      have hn : (img.dinode n).type ≠ .free := hn
      rw [Image.dinode] at hn
      have hone : rootIno = 1 := rfl
      split at hn
      · omega
      · split at hn
        · omega
        · exact hn rfl
  refine ⟨⟨inv_boot img .a3, fun i _ hpos hvalid => ?_, fun n hn hzero _ => absurd hzero (hlinks n hn),
    fun i _ _ _ hfree _ => hlinks _ hfree, fun p hp => ?_⟩, ?_, fun n hn => absurd hn (by simp)⟩
  · rw [boot_inode img .a3 hpos] at hvalid
    exact absurd hvalid (by simp [Image.boot])
  · rw [List.mem_singleton.mp hp]
    exact (by decide : Kind.dir ≠ .free)
  · rw [Disk.minus_none]
    exact htree

/-- The counts are exact in every state of a run in which no call strays. -/
theorem links_exact (img : Image) (hplain : img.Plain) (es : List Event)
    (hno : Always Kernel.step (fun k e _ => ¬e.strays k) (img.boot .a3) es) :
    (img.boot .a3).Exact ∧ Always Kernel.step (fun _ _ t => t.Exact) (img.boot .a3) es := by
  refine ⟨(linked_boot img hplain).exact, ?_⟩
  refine Always.of_invariant (I := Linked none [] [] []) (fun s e t hs hd ht => ?_) (linked_boot img hplain) hno
  have ht := step_linked hs hd ht
  exact ⟨ht, ht.exact⟩

theorem shell_plain : Image.shell.Plain := by
  intro f hf
  rw [List.mem_singleton.mp hf]
  exact ⟨by decide, by decide⟩

/-- A directory is made in the root. -/
theorem links_exact_mkdir : ∃ t, (Image.shell.boot .a3).step (.call (.mkdir (some [slash, 97]))) = some t ∧
    t.disk.nlink 3 = 1 ∧ t.Exact := by
  have hrun : ((Image.shell.boot .a3).step (.call (.mkdir (some [slash, 97])))).map
      (fun t => t.disk.nlink 3) = some 1 := by
    decide
  obtain ⟨t, ht, hlink⟩ := Option.map_eq_some_iff.mp hrun
  have hno : Always Kernel.step (fun k e _ => ¬e.strays k) (Image.shell.boot .a3) [.call (.mkdir (some [slash, 97]))] := by
    refine fun t _ => ⟨?_, trivial⟩
    rintro ⟨c, hc, ⟨path, type, hcr, n, name, hleads, hzero, -⟩ | ⟨old, new, n, rfl, -⟩⟩
    · obtain rfl := Event.call.inj hc
      obtain ⟨rfl, rfl⟩ := Prod.mk.inj (Option.some.inj hcr)
      have hroot : (Image.shell.boot .a3).leads [slash, 97] true = some (1, [97]) := by decide
      obtain ⟨rfl, -⟩ := Prod.mk.inj (Option.some.inj (hleads.symm.trans hroot))
      exact absurd hzero (by decide)
    · exact absurd (Event.call.inj hc) (by simp)
  exact ⟨t, ht, hlink, ((links_exact Image.shell shell_plain _ hno).2 t ht).1⟩

/-- A file is made in the current directory after that has been removed. -/
theorem orphan_inexact : ∃ k, Run.exec Kernel.step (Image.shell.boot .a3)
    [.call (.mkdir (some [slash, 97])), .call (.chdir (some [slash, 97])), .call (.unlink (some [slash, 97])),
      .call (.open (some [120]) 513)] = some k ∧ ¬k.Exact := by
  have hrun : (Run.exec Kernel.step (Image.shell.boot .a3)
      [.call (.mkdir (some [slash, 97])), .call (.chdir (some [slash, 97])), .call (.unlink (some [slash, 97])),
        .call (.open (some [120]) 513)]).map (fun k => (k.disk.type 4, k.disk.nlink 4, k.disk.names 4)) =
      some (.file, 1, 0) := by
    decide +kernel
  obtain ⟨k, hk, hr⟩ := Option.map_eq_some_iff.mp hrun
  simp only [Prod.mk.injEq] at hr
  refine ⟨k, hk, fun hexact => ?_⟩
  have := hexact.1 4 (by rw [hr.1]; decide) (by rw [hr.2.1]; decide)
  rw [hr.2.1, hr.2.2] at this
  exact absurd this (by decide)

end Xv6.Files
