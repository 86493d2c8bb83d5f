import AdvancedXv6.Files.Counts
import AdvancedXv6.Files.Inode

/-! What the operations of the inode cache do to the references that a state accounts for. -/

namespace Xv6.Files
open Function Effect

variable {v : Version} {H H' G L L' : List Nat} {k t : Kernel} {i j f ip : Nat} {n : Inode}

namespace Inv

/-- No other entry in use is for the same inode. -/
theorem only (h : Inv v H G L k) (hi : i < ninode) (hpos : 0 < (k.inode i).ref) :
    ∀ j < ninode, j ≠ i → 0 < (k.inode j).ref → (k.inode j).inum ≠ (k.inode i).inum :=
  fun j hj hne hposj heq => hne (h.unique j hj i hi hposj hpos heq)

theorem pos_of_held (h : Inv v H G L k) (hi : i ∈ H) : 0 < (k.inode i).ref := by
  have hcount := List.count_pos_iff.mpr hi
  rw [h.refs i (h.held i hi)]
  omega

theorem nonneg (h : Inv v H G L k) (hi : i < ninode) : 0 ≤ (k.inode i).ref := by
  rw [h.refs i hi]
  omega

/-- A change of one entry of the cache and of its inode on the disk. -/
theorem change (h : Inv v H G L k) (hi : i < ninode) {d : Dinode} {ns : List Note}
    (hheld : ∀ j ∈ H', j < ninode) (hcount : ∀ j ≠ i, H'.count j = H.count j)
    (href : n.ref = k.uses i + H'.count i) (hdev : 0 < n.ref → n.dev = rootDev)
    (hid : ∀ j < ninode, j ≠ i → 0 < (k.inode j).ref → (k.inode j).inum ≠ n.inum)
    (hopen : ∀ f < nfile, k.Live f → (k.file f).ip = some i → n.valid = true)
    (hlocked : n.locked = true ↔ i ∈ L') (hL : ∀ j ≠ i, (j ∈ L' ↔ j ∈ L))
    (hlock : i ∈ L' → n.valid = true ∧ 0 < n.ref)
    (hcached : 0 < n.ref → n.valid = true →
      n.copy.type = d.type ∧ n.copy.perm = d.perm ∧ n.copy.type ≠ .free)
    (hperm : d.type ≠ .free → d.perm = (granted ns n.inum ^^^ 7) &&& 7)
    (hns : ∀ m ≠ n.inum, granted ns m = granted k.notes m) :
    Inv v H' G L' { k with
      inode := update k.inode i n
      dinode := update k.dinode n.inum d
      notes := ns } := by
  refine ⟨h.version, h.cwd, h.ofile, hheld, fun f hf hlive => ?_, h.closed, h.ips, fun j hj => ?_, h.files,
    fun j hj l hl hposj hposl heq => ?_, fun j hj => ?_, fun j hj => ?_, fun j hj => ?_,
    fun j hj hpos hv => ?_, fun m hm => ?_⟩
  · obtain ⟨j, hj, hip, hvalid⟩ := h.opened f hf hlive
    refine ⟨j, hj, hip, ?_⟩
    by_cases hji : j = i
    · subst hji
      exact (congrArg Inode.valid (update_self ..)).trans (hopen f hf hlive hip)
    · exact (congrArg Inode.valid (update_of_ne hji ..)).trans hvalid
  · by_cases hji : j = i
    · subst hji
      exact (congrArg Inode.ref (update_self ..)).trans href
    · refine (congrArg Inode.ref (update_of_ne hji ..)).trans ?_
      rw [h.refs j hj, hcount j hji]
      rfl
  · dsimp only at hposj hposl heq
    by_cases hji : j = i <;> by_cases hli : l = i
    · rw [hji, hli]
    · rw [hji, update_self, update_of_ne hli] at heq
      rw [update_of_ne hli] at hposl
      exact absurd heq.symm (hid l hl hli hposl)
    · rw [hli, update_self, update_of_ne hji] at heq
      rw [update_of_ne hji] at hposj
      exact absurd heq (hid j hj hji hposj)
    · rw [update_of_ne hji, update_of_ne hli] at heq
      rw [update_of_ne hji] at hposj
      rw [update_of_ne hli] at hposl
      exact h.unique j hj l hl hposj hposl heq
  · dsimp only
    by_cases hji : j = i
    · rw [hji, update_self]
      exact hdev
    · rw [update_of_ne hji]
      exact h.dev j hj
  · dsimp only
    by_cases hji : j = i
    · rw [hji, update_self]
      exact hlocked
    · rw [update_of_ne hji]
      exact (h.locked j hj).trans (hL j hji).symm
  · dsimp only
    by_cases hji : j = i
    · subst hji
      rw [update_self]
      exact ⟨hi, hlock hj⟩
    · rw [update_of_ne hji]
      exact h.lock j ((hL j hji).mp hj)
  · dsimp only at hpos hv ⊢
    by_cases hji : j = i
    · subst hji
      rw [update_self] at hpos hv ⊢
      rw [update_self]
      exact hcached hpos hv
    · rw [update_of_ne hji] at hpos hv ⊢
      rw [update_of_ne (hid j hj hji hpos)]
      exact h.cached j hj hpos hv
  · dsimp only at hm ⊢
    by_cases hmn : m = n.inum
    · rw [hmn, update_self] at hm ⊢
      exact hperm hm
    · rw [update_of_ne hmn] at hm ⊢
      rw [h.perm m hm, hns m hmn]

/-- A change of one entry of the cache. -/
theorem setInode (h : Inv v H G L k) (hi : i < ninode) (hheld : ∀ j ∈ H', j < ninode)
    (hcount : ∀ j ≠ i, H'.count j = H.count j) (href : n.ref = k.uses i + H'.count i)
    (hdev : 0 < n.ref → n.dev = rootDev)
    (hid : ∀ j < ninode, j ≠ i → 0 < (k.inode j).ref → (k.inode j).inum ≠ n.inum)
    (hopen : ∀ f < nfile, k.Live f → (k.file f).ip = some i → n.valid = true)
    (hlocked : n.locked = true ↔ i ∈ L') (hL : ∀ j ≠ i, (j ∈ L' ↔ j ∈ L))
    (hlock : i ∈ L' → n.valid = true ∧ 0 < n.ref)
    (hcached : 0 < n.ref → n.valid = true → n.copy.type = (k.dinode n.inum).type ∧
      n.copy.perm = (k.dinode n.inum).perm ∧ n.copy.type ≠ .free) :
    Inv v H' G L' { k with inode := update k.inode i n } := by
  have := h.change hi hheld hcount href hdev hid hopen hlocked hL hlock hcached (h.perm n.inum)
    fun _ _ => rfl
  rwa [update_eq_self] at this

/-- A file that refers to an entry keeps it valid. -/
theorem valid_of_file (h : Inv v H G L k) (hf : f < nfile) (hlive : k.Live f)
    (hip : (k.file f).ip = some i) : (k.inode i).valid = true := by
  obtain ⟨j, -, hjp, hvalid⟩ := h.opened f hf hlive
  obtain rfl : i = j := Option.some.inj (hip.symm.trans hjp)
  exact hvalid

/-- A change of one disk inode, and of the notes. -/
theorem setDinode (h : Inv v H G L k) {m : Nat} {d : Dinode} {ns : List Note}
    (hcached : ∀ i < ninode, 0 < (k.inode i).ref → (k.inode i).valid = true → (k.inode i).inum = m →
      (k.inode i).copy.type = d.type ∧ (k.inode i).copy.perm = d.perm)
    (hperm : d.type ≠ .free → d.perm = (granted ns m ^^^ 7) &&& 7)
    (hns : ∀ n ≠ m, granted ns n = granted k.notes n) :
    Inv v H G L { k with dinode := update k.dinode m d, notes := ns } := by
  refine ⟨h.version, h.cwd, h.ofile, h.held, h.opened, h.closed, h.ips, h.refs, h.files, h.unique, h.dev, h.locked, h.lock,
    fun i hi hpos hvalid => ?_, fun n hn => ?_⟩
  · obtain ⟨htype, hperm, hfree⟩ := h.cached i hi hpos hvalid
    dsimp only at hpos hvalid ⊢
    by_cases him : (k.inode i).inum = m
    · rw [him, update_self]
      obtain ⟨htype, hperm⟩ := hcached i hi hpos hvalid him
      exact ⟨htype, hperm, hfree⟩
    · rw [update_of_ne him]
      exact ⟨htype, hperm, hfree⟩
  · dsimp only at hn ⊢
    by_cases hnm : n = m
    · subst hnm
      rw [update_self] at hn ⊢
      exact hperm hn
    · rw [update_of_ne hnm] at hn ⊢
      rw [h.perm n hn, hns n hnm]

/-- The order of the references and of the locks does not matter. -/
theorem reorder (h : Inv v H G L k) (hH : ∀ i, H'.count i = H.count i) (hL : ∀ i, i ∈ L' ↔ i ∈ L) :
    Inv v H' G L' k := by
  refine ⟨h.version, h.cwd, h.ofile, fun i hi => ?_, h.opened, h.closed, h.ips, fun i hi => ?_, h.files, h.unique, h.dev,
    fun i hi => ?_, fun i hi => h.lock i ((hL i).mp hi), h.cached, h.perm⟩
  · have := List.count_pos_iff.mpr hi
    rw [hH] at this
    exact h.held i (List.count_pos_iff.mp this)
  · rw [hH]
    exact h.refs i hi
  · rw [hL]
    exact h.locked i hi

end Inv

/-! ### The states that the operations leave -/

namespace Kernel

def grabbed (k : Kernel) (i : Nat) : Kernel := k.setInode i fun n => { n with ref := n.ref + 1 }

def recycled (k : Kernel) (i inum : Nat) : Kernel :=
  k.setInode i fun n => { n with dev := rootDev, inum, ref := 1, valid := false }

/-- The entry is locked, and read from the disk if it has not been. -/
def lockedAt (k : Kernel) (i : Nat) : Kernel := k.setInode i fun n =>
  { n with locked := true, valid := true, copy := if n.valid then n.copy else k.dinode n.inum }

def unlockedAt (k : Kernel) (i : Nat) : Kernel := k.setInode i fun n => { n with locked := false }

/-- `iput` frees the inode. -/
def Unused (k : Kernel) (i : Nat) : Prop :=
  (k.inode i).valid = true ∧ (k.inode i).copy.nlink = 0 ∧ (k.inode i).ref = 1

instance (k : Kernel) (i : Nat) : Decidable (k.Unused i) := inferInstanceAs (Decidable (_ ∧ _))

def released (k : Kernel) (i : Nat) : Kernel :=
  if k.Unused i then
    let free := { (k.inode i).copy with type := .free }
    { k.setInode i fun n => { n with locked := false, ref := n.ref - 1, valid := false, copy := free } with
      dinode := update k.dinode (k.inode i).inum (free.pack k.version)
      notes := .freed (k.inode i).inum :: k.notes }
  else k.setInode i fun n => { n with locked := false, ref := n.ref - 1 }

/-- The inode is changed and written through. -/
def updated (k : Kernel) (i : Nat) (f : Dinode → Dinode) : Kernel :=
  { k.setInode i fun n => { n with copy := f n.copy } with
    dinode := update k.dinode (k.inode i).inum ((f (k.inode i).copy).pack k.version) }

end Kernel

namespace Inv

theorem grab (h : Inv v H G L k) (hi : i < ninode) (hpos : 0 < (k.inode i).ref) :
    Inv v (i :: H) G L (k.grabbed i) := by
  refine h.setInode hi (List.forall_mem_cons.mpr ⟨hi, h.held⟩) (fun j hj => ?_) ?_
    (fun _ => h.dev i hi hpos) (h.only hi hpos) (fun f => h.valid_of_file) (h.locked i hi)
    (fun j _ => Iff.rfl) (fun hl => ?_) (fun _ hv => ?_)
  · exact List.count_cons_of_ne hj.symm
  · dsimp only
    rw [h.refs i hi, List.count_cons_self]
    omega
  · exact ⟨(h.lock i hl).2.1, Int.lt_add_one_of_le (Int.le_of_lt hpos)⟩
  · exact h.cached i hi hpos hv

/-- An entry that is not in use is not locked, and no file refers to it. -/
theorem idle (h : Inv v H G L k) (hi : i < ninode) (hzero : (k.inode i).ref = 0) :
    i ∉ L ∧ k.uses i = 0 ∧ H.count i = 0 := by
  have hrefs := h.refs i hi
  rw [hzero] at hrefs
  refine ⟨fun hl => ?_, by omega, by omega⟩
  have := (h.lock i hl).2.2
  omega

theorem live_uses (hf : f < nfile) (hlive : k.Live f) (hip : (k.file f).ip = some i) : 0 < k.uses i := by
  refine Nat.add_pos_left (List.countP_pos_iff.mpr ⟨f, List.mem_range.mpr hf, ?_⟩) _
  exact decide_eq_true ⟨hlive, hip⟩

theorem recycle (h : Inv v H G L k) (hi : i < ninode) (hzero : (k.inode i).ref = 0) {inum : Nat}
    (hnew : ∀ j < ninode, 0 < (k.inode j).ref → (k.inode j).inum ≠ inum) :
    Inv v (i :: H) G L (k.recycled i inum) := by
  obtain ⟨hl, huses, hcount⟩ := h.idle hi hzero
  refine h.setInode hi (List.forall_mem_cons.mpr ⟨hi, h.held⟩) (fun j hj => ?_) ?_ (fun _ => rfl)
    (fun j hj _ => hnew j hj) (fun f hf hlive hip => ?_) (h.locked i hi) (fun j _ => Iff.rfl)
    (fun hl' => absurd hl' hl) (fun _ hv => ?_)
  · exact List.count_cons_of_ne hj.symm
  · dsimp only
    rw [huses, List.count_cons_self, hcount]
    rfl
  · exact absurd huses (Nat.ne_of_gt (live_uses hf hlive hip))
  · exact absurd hv Bool.false_ne_true

theorem lockAt (h : Inv v H G L k) (hi : i < ninode) (hpos : 0 < (k.inode i).ref)
    (hfree : (k.inode i).valid = false → (k.dinode (k.inode i).inum).type ≠ .free) :
    Inv v H G (i :: L) (k.lockedAt i) := by
  refine h.setInode hi h.held (fun j _ => rfl) (h.refs i hi)
    (fun _ => h.dev i hi hpos) (h.only hi hpos) (fun _ _ _ _ => rfl)
    (iff_of_true rfl List.mem_cons_self) (fun j hj => ?_) (fun _ => ⟨rfl, hpos⟩) (fun _ _ => ?_)
  · rw [List.mem_cons, or_iff_right hj]
  · dsimp only
    cases hv : (k.inode i).valid with
    | true => exact h.cached i hi hpos hv
    | false => exact ⟨rfl, rfl, hfree hv⟩

theorem unlock (h : Inv v H G L k) (hi : i ∈ L) (hL : ∀ j, j ∈ L' ↔ j ∈ L ∧ j ≠ i) :
    Inv v H G L' (k.unlockedAt i) := by
  obtain ⟨hlt, -, hpos⟩ := h.lock i hi
  have hi' : i ∉ L' := fun hl => ((hL i).mp hl).2 rfl
  refine h.setInode hlt h.held (fun j _ => rfl) (h.refs i hlt) (fun _ => h.dev i hlt hpos)
    (h.only hlt hpos) (fun f => h.valid_of_file) (iff_of_false Bool.false_ne_true hi') (fun j hj => ?_)
    (fun hl => absurd hl hi') (fun hpos hv => h.cached i hlt hpos hv)
  rw [hL, and_iff_left hj]

theorem erase_held (h : Inv v (i :: H) G L k) : ∀ j ∈ H, j < ninode :=
  fun j hj => h.held j (List.mem_cons_of_mem _ hj)

/-- A reference is dropped, with the inode if it is of no more use. -/
theorem release (h : Inv v (i :: H) G L k) (hl : i ∉ L) : Inv v H G L (k.released i) := by
  have hi := h.held i List.mem_cons_self
  have hpos := h.pos_of_held List.mem_cons_self
  have hrefs := h.refs i hi
  rw [List.count_cons_self] at hrefs
  have hcount : ∀ j ≠ i, H.count j = (i :: H).count j := fun j hj => (List.count_cons_of_ne hj.symm).symm
  have hlocked : false = true ↔ i ∈ L := iff_of_false Bool.false_ne_true hl
  rw [Kernel.released]
  split
  · rename_i hun
    have hnouse : k.uses i = 0 := by
      have := hun.2.2
      omega
    refine h.change hi h.erase_held hcount ?_ (fun _ => h.dev i hi hpos) (h.only hi hpos)
      (fun f hf hlive hip => absurd hnouse (Nat.ne_of_gt (live_uses hf hlive hip))) hlocked
      (fun j _ => Iff.rfl) (fun hl' => absurd hl' hl) (fun _ hv => absurd hv Bool.false_ne_true)
      (fun hne => absurd rfl hne) (fun n _ => rfl)
    dsimp only
    omega
  · refine h.setInode hi h.erase_held hcount ?_ (fun _ => h.dev i hi hpos) (h.only hi hpos)
      (fun f => h.valid_of_file) hlocked (fun j _ => Iff.rfl) (fun hl' => absurd hl' hl)
      (fun _ hv => h.cached i hi hpos hv)
    dsimp only
    omega

/-- A change of a locked inode that is written through. -/
theorem rewrite (h : Inv v H G L k) (hi : i ∈ L) {f : Dinode → Dinode} {ns : List Note}
    (htype : (f (k.inode i).copy).type = (k.inode i).copy.type)
    (hperm : (f (k.inode i).copy).perm = (granted ns (k.inode i).inum ^^^ 7) &&& 7)
    (hns : ∀ n ≠ (k.inode i).inum, granted ns n = granted k.notes n) :
    Inv v H G L { k.updated i f with notes := ns } := by
  obtain ⟨hlt, hvalid, hpos⟩ := h.lock i hi
  obtain ⟨-, -, hcf⟩ := h.cached i hlt hpos hvalid
  have hlow : (f (k.inode i).copy).perm % 2 ^ 3 = (f (k.inode i).copy).perm := by
    rw [hperm]
    exact Nat.mod_eq_of_lt (Nat.lt_of_le_of_lt Nat.and_le_right (by decide))
  refine h.change hlt h.held (fun j _ => rfl) (h.refs i hlt) (fun _ => h.dev i hlt hpos)
    (h.only hlt hpos) (fun _ _ _ _ => hvalid) (h.locked i hlt) (fun j _ => Iff.rfl)
    (fun _ => ⟨hvalid, hpos⟩) (fun _ _ => ⟨rfl, hlow.symm, htype.symm ▸ hcf⟩)
    (fun _ => hlow.trans hperm) hns

/-- A change of a locked inode that leaves its type and its permissions. -/
theorem updated (h : Inv v H G L k) (hi : i ∈ L) {f : Dinode → Dinode} (htype : ∀ d, (f d).type = d.type)
    (hperm : ∀ d, (f d).perm = d.perm) : Inv v H G L (k.updated i f) := by
  obtain ⟨hlt, hvalid, hpos⟩ := h.lock i hi
  obtain ⟨hct, hcp, hcf⟩ := h.cached i hlt hpos hvalid
  refine h.rewrite hi (htype _) ?_ fun _ _ => rfl
  rw [hperm, hcp]
  exact h.perm _ (hct ▸ hcf)

theorem chmod (h : Inv v H G L k) (hi : i ∈ L) (mode : Nat) : Inv v H G L
    { k.updated i (fun d => { d with perm := (mode ^^^ 7) &&& 7 }) with
      notes := .chmod (k.inode i).inum mode :: k.notes } :=
  h.rewrite hi rfl (by rw [granted, if_pos rfl]) fun n hn => by rw [granted, if_neg hn.symm]

/-- A free inode gets a type, and no permission is refused. -/
theorem allocate (h : Inv v H G L k) {m : Nat} {type : Kind} (hm : (k.dinode m).type = .free) :
    Inv v H G L { k with dinode := update k.dinode m ⟨type, 0, 0, 0, 0⟩, notes := .created m :: k.notes } := by
  refine h.setDinode (fun j hj hpos hv hjm => ?_) (fun _ => ?_) fun n hn => ?_
  · obtain ⟨htype, -, hfree⟩ := h.cached j hj hpos hv
    rw [hjm, hm] at htype
    exact absurd htype hfree
  · rw [granted, if_pos rfl]
    rfl
  · rw [granted, if_neg hn.symm]

end Inv

end Xv6.Files
